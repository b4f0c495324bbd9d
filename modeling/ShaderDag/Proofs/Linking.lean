import ShaderDag.Proofs.Kinding

/-!
# How the two stages fit together

The vertex stage hands its varyings to the fragment stage, and both share the uniforms.  The declarations
come from one walk over the program, the statements from others; this module shows that they agree.

* `Stage.reads`, `Stage.targets` — what the statements of a stage read and assign;
* `ShaderPair.Links` — the two stages agree on varyings and uniforms;
* `Stage.DeclaresRead` — a stage declares the attributes and uniforms that it reads;
* `Pool.Covers.mem_names_term` — a term reads the names that unnamed nodes lead to;
* `Pool.StageOf.mem_reads` — a stage reads an input exactly if the input belongs to it;
* `Program.assemble_links` — the two stages of every program link.
-/

namespace ShaderDag

/-- The varying or output that a statement assigns. -/
def Statement.target? : Statement → Option String
  | define _ _ _ => none
  | assign name _ => some name

namespace Stage

/-- The names that statements read, place by place. -/
def reads (s : Stage) : List String := s.body.flatMap fun statement => statement.value.names

/-- The varyings and outputs that statements assign, in order. -/
def targets (s : Stage) : List String := s.body.filterMap Statement.target?

/-- Of the attributes and uniforms below some roots, a stage declares those that a statement reads, and no
others. -/
structure DeclaresRead (s : Stage) (p : Pool) (roots : List Nat) (precision : Precision) : Prop where
  attributes : ∀ id name, p.Uses roots id → p.attributeName? id = some name →
    (⟨.attribute, p.kind id, name⟩ ∈ s.declarations ↔ name ∈ s.reads)
  uniforms : ∀ id name, p.Uses roots id → p.uniformName? id = some name →
    (⟨uniformStorage precision (p.kind id), p.kind id, name⟩ ∈ s.declarations ↔ name ∈ s.reads)
  only : ∀ d ∈ s.declarations, d.storage ≠ .varying →
    ∃ id, p.Uses roots id ∧ p.callerName? id = some d.name

end Stage

/-- What the two stages of a program agree on: both declare the same varyings in the same order; the vertex
stage assigns each of them once, in that order and before the position, and reads none; the fragment stage
reads each of them; what both declare under one name they declare alike; and the fragment stage has no
attribute. -/
structure ShaderPair.Links (pair : ShaderPair) : Prop where
  varyings : pair.vertex.varyings = pair.fragment.varyings
  assigned : pair.vertex.targets = pair.vertex.varyings.map (·.name) ++ ["gl_Position"]
  once : ∀ d ∈ pair.vertex.varyings, pair.vertex.targets.count d.name = 1
  unread : ∀ d ∈ pair.vertex.varyings, d.name ∉ pair.vertex.reads
  read : ∀ d ∈ pair.fragment.varyings, d.name ∈ pair.fragment.reads
  alike : ∀ d ∈ pair.vertex.declarations, ∀ e ∈ pair.fragment.declarations, d.name = e.name → d = e
  noAttribute : ∀ d ∈ pair.fragment.declarations, d.storage ≠ .attribute

/-! ### What terms read -/

namespace Pool

variable {p : Pool} {names names' : Binder} {roots : List Nat} {a id : Nat} {name : String}

/-- Paths through nodes without a name, which are the places that a term writes out. -/
def Opens (p : Pool) (names : Binder) : Nat → Nat → Prop :=
  p.ReachesBy fun c => names.nameOf? c = none

/-- With fewer names, more is written out. -/
theorem Opens.mono (kept : names.KeptBy names') (path : p.Opens names' a id) : p.Opens names a id := by
  refine Relation.ReflTransGen.mono (fun b c step => ⟨?_, step.2⟩) _ _ path
  have free : names'.nameOf? b = none := step.1
  refine Option.eq_none_iff_forall_ne_some.2 fun text hn => ?_
  rw [kept b text hn] at free
  cases free

/-- What a term writes out belongs to the stage. -/
theorem Covers.inStage_of_opens (covers : p.Covers names roots) (mem : p.InStage roots a)
    (path : p.Opens names a id) : p.InStage roots id := by
  induction path with
  | refl => exact mem
  | tail _ step ih => exact covers.termClosed.child _ _ ih step.1 step.2

/-- **What a term reads.**  A term reads exactly the names that are reached from its node through nodes
without a name. -/
theorem Covers.mem_names_term {t : Term} (wf : p.WellFormed) (covers : p.Covers names roots)
    (mem : p.InStage roots id) (written : p.term names id = .ok t) :
    name ∈ t.names ↔ ∃ c, p.Opens names id c ∧ names.nameOf? c = some name := by
  have bound : ∀ c text, p.InStage roots c → names.nameOf? c = some text →
      (name ∈ (Term.name text).names ↔ ∃ d, p.Opens names c d ∧ names.nameOf? d = some name) := by
    intro c text _ hn
    rw [Term.names, List.mem_singleton]
    constructor
    · rintro rfl
      exact ⟨c, .refl, hn⟩
    · rintro ⟨d, path, hd⟩
      rcases Relation.ReflTransGen.cases_head path with rfl | ⟨b, ⟨free, -⟩, -⟩
      · exact Option.some.inj (hd.symm.trans hn)
      · rw [hn] at free
        cases free
  refine covers.term_holds
    (motive := fun id t => name ∈ t.names ↔ ∃ c, p.Opens names id c ∧ names.nameOf? c = some name)
    wf bound (fun c e m he operation free same children => ?_) mem written
  have shape : (m.map (·.2)).isInput = false := by
    simpa [same] using operation
  have step : ∀ d, p.Child c d ↔ ∃ x ∈ m.children, x.1 = d := by
    intro d
    rw [Child, wf.childList_eq he, same, Node.children_map, List.mem_map]
  rw [Term.mem_names_ofNode shape, Node.children_map]
  constructor
  · rintro ⟨t, ht, read⟩
    obtain ⟨x, hx, rfl⟩ := List.mem_map.1 ht
    obtain ⟨d, path, hd⟩ := (children x hx).2.2.1 read
    exact ⟨d, .head ⟨free, (step x.1).2 ⟨x, hx, rfl⟩⟩ path, hd⟩
  · rintro ⟨d, path, hd⟩
    rcases Relation.ReflTransGen.cases_head path with rfl | ⟨b, ⟨-, child⟩, rest⟩
    · rw [free] at hd
      cases hd
    · obtain ⟨x, hx, rfl⟩ := (step b).1 child
      exact ⟨x.2, List.mem_map_of_mem hx, (children x hx).2.2.2 ⟨d, rest, hd⟩⟩

/-! ### What stages read -/

variable {precision : Precision} {assignments : List (String × Nat)} {stage : Stage}

/-- What a stage reads belongs to it: every statement is written with names of the stage's nodes, and no
two of them have one name. -/
theorem StageOf.inStage_of_reads (h : p.StageOf roots names precision assignments stage)
    (wf : p.WellFormed) (named : p.Named roots names) (hn : names.nameOf? id = some name)
    (read : name ∈ stage.reads) : p.InStage (assignments.map (·.2)) id := by
  obtain ⟨defs, outputs, names', body⟩ := h.body
  have kept : names.KeptBy names' := fun _ _ hc => body.defs.nameOf?_mono hc
  -- a term of a node of the stage, with some of the names that are given in the end
  have settle : ∀ {between : Binder} {c : Nat} {value : Term}, names.KeptBy between →
      between.KeptBy names' → p.InStage (assignments.map (·.2)) c → p.term between c = .ok value →
      name ∈ value.names → p.InStage (assignments.map (·.2)) id := by
    intro between c value first last inStage written mem
    have covers := h.covers.mono first
    obtain ⟨d, path, hd⟩ := (covers.mem_names_term wf inStage written).1 mem
    obtain rfl : d = id := (body.defs.sound named.sound).id_eq (last d name hd) (kept id name hn)
    exact covers.inStage_of_opens inStage path
  obtain ⟨statement, mem, read⟩ := List.mem_flatMap.1 read
  rw [body.body_eq] at mem
  rcases List.mem_append.1 mem with mem | mem
  · obtain ⟨c, hc, between, text, value, rfl, written, -, first, last⟩ :=
      exists_of_forall₂_right body.defs.defines mem
    exact settle first last (h.covers.hoisted hc).1 written read
  · obtain ⟨assignment, ha, value, written, rfl⟩ := exists_of_forall₂_right body.outputs mem
    exact settle kept (fun _ _ hc => hc) (inStage_root (List.mem_map_of_mem ha)) written read

/-- What belongs to a stage is read.  On the way from a root to an input, the last node with a local is
written out by its definition; without such a node, the root's assignment writes the way out.  The induction
is on the way, from its end. -/
theorem StageOf.reads_of_inStage (h : p.StageOf roots names precision assignments stage)
    (wf : p.WellFormed) (named : p.Named roots names) (hn : names.nameOf? id = some name)
    (mem : p.InStage (assignments.map (·.2)) id) : name ∈ stage.reads := by
  obtain ⟨defs, outputs, names', body⟩ := h.body
  have kept : names.KeptBy names' := fun _ _ hc => body.defs.nameOf?_mono hc
  have reads : ∀ statement ∈ defs ++ outputs, name ∈ statement.value.names → name ∈ stage.reads := by
    intro statement hs read
    exact List.mem_flatMap.2 ⟨statement, body.body_eq ▸ hs, read⟩
  have way : ∀ {r}, p.ReachesBy (fun c => p.isInput c = false) r id →
      name ∈ stage.reads ∨ p.Opens names' r id := by
    intro r path
    induction path using Relation.ReflTransGen.head_induction_on with
    | refl => exact .inr .refl
    | @head c d step _ ih =>
      rcases ih with read | path
      · exact .inl read
      cases free : names'.nameOf? c with
      | none => exact .inr (.head ⟨free, step.2⟩ path)
      | some text =>
        -- the node is no input, so its name is that of a local
        have unbound : names.isBound c = false := by
          refine Bool.eq_false_iff.2 fun bound => ?_
          have input := (named.exists_name_iff.1 (Option.isSome_iff_exists.1 bound)).2
          rw [step.1] at input
          cases input
        have hoisted : c ∈ p.hoisted names assignments := by
          have := body.defs.isBound c
          rwa [Binder.isBound, free, unbound, Option.isSome_some, Bool.false_or, eq_comm,
            List.contains_iff_mem] at this
        obtain ⟨statement, hs, between, text, value, rfl, written, fresh, first, last⟩ :=
          exists_of_forall₂_left body.defs.defines hoisted
        have covers := h.covers.mono first
        have read := (covers.mem_names_term wf (h.covers.hoisted hoisted).1 written).2
          ⟨id, .head ⟨fresh, step.2⟩ (path.mono last), first id name hn⟩
        exact .inl (reads _ (List.mem_append_left _ hs) read)
  obtain ⟨r, hr, path⟩ := mem
  rcases way path with read | path
  · exact read
  obtain ⟨assignment, ha, rfl⟩ := List.mem_map.1 hr
  obtain ⟨statement, hs, value, written, rfl⟩ := exists_of_forall₂_left body.outputs ha
  have read := ((h.covers.mono kept).mem_names_term wf (inStage_root hr) written).2
    ⟨id, path, kept id name hn⟩
  exact reads _ (List.mem_append_right _ hs) read

/-- **A stage reads an input exactly if the input belongs to it.** -/
theorem StageOf.mem_reads (h : p.StageOf roots names precision assignments stage) (wf : p.WellFormed)
    (named : p.Named roots names) (hn : names.nameOf? id = some name) :
    name ∈ stage.reads ↔ p.InStage (assignments.map (·.2)) id :=
  ⟨h.inStage_of_reads wf named hn, h.reads_of_inStage wf named hn⟩

/-! ### What stages declare and assign -/

theorem Declares.eq {input : Storage × Nat} {d e : Declaration} (h : p.Declares names input d)
    (h' : p.Declares names input e) : d = e := by
  obtain ⟨storage, kind, text⟩ := d
  obtain ⟨storage', kind', text'⟩ := e
  obtain rfl : storage = storage' := h.storage.trans h'.storage.symm
  obtain rfl : kind = kind' := h.kind.trans h'.kind.symm
  obtain rfl : text = text' := Option.some.inj (h.name.symm.trans h'.name)
  rfl

/-- The declarations of a stage are those of the inputs that it lists. -/
theorem StageOf.mem_declarations_iff (h : p.StageOf roots names precision assignments stage)
    (sound : names.Sound) (hn : names.nameOf? id = some name) {storage : Storage} {kind : Kind} :
    ⟨storage, kind, name⟩ ∈ stage.declarations ↔
      (storage, id) ∈ p.declared roots precision (p.stageInputs (assignments.map (·.2))) ∧
        kind = p.kind id := by
  constructor
  · intro mem
    obtain ⟨⟨storage', other⟩, listed, declares⟩ := exists_of_forall₂_right h.declarations mem
    obtain rfl : other = id := sound.id_eq declares.name hn
    obtain rfl : storage = storage' := declares.storage
    exact ⟨listed, declares.kind⟩
  · rintro ⟨listed, rfl⟩
    obtain ⟨d, hd, declares⟩ := exists_of_forall₂_left h.declarations listed
    have same : d = ⟨storage, p.kind id, name⟩ := declares.eq ⟨rfl, rfl, hn⟩
    exact same ▸ hd

theorem uniformStorage_ne (precision : Precision) (kind : Kind) :
    uniformStorage precision kind ≠ .attribute ∧ uniformStorage precision kind ≠ .varying :=
  ⟨nofun, nofun⟩

/-- An input is declared with the same storage wherever it is declared. -/
theorem storage_eq {read read' : List Nat} {storage storage' : Storage}
    (h : (storage, id) ∈ p.declared roots precision read)
    (h' : (storage', id) ∈ p.declared roots precision read') : storage = storage' := by
  have apart : ∀ {text other : String}, p.attributeName? id = some text → p.uniformName? id ≠ some other := by
    intro text other ha hu
    rw [attributeName?_eq_some_iff] at ha
    rw [uniformName?_eq_some_iff, ha] at hu
    cases hu
  have unnamed : ∀ {text : String}, p.callerName? id = some text → ¬p.IsVarying id := by
    intro text hc varying
    rw [varying.callerName?_eq_none] at hc
    cases hc
  rcases (mem_declared.1 h).2 with ⟨-, rfl, text, ha⟩ | ⟨-, rfl, text, hu⟩ | ⟨rfl, varying⟩ <;>
    rcases (mem_declared.1 h').2 with ⟨-, rfl, text', ha'⟩ | ⟨-, rfl, text', hu'⟩ | ⟨rfl, varying'⟩
  · rfl
  · exact absurd hu' (apart ha)
  · exact absurd varying' (unnamed (callerName?_eq_some_iff.2 (.inl ha)))
  · exact absurd hu (apart ha')
  · rfl
  · exact absurd varying' (unnamed (callerName?_eq_some_iff.2 (.inr hu)))
  · exact absurd varying (unnamed (callerName?_eq_some_iff.2 (.inl ha')))
  · exact absurd varying (unnamed (callerName?_eq_some_iff.2 (.inr hu')))
  · rfl

/-- **A stage declares the attributes and uniforms that it reads.** -/
theorem StageOf.declaresRead (h : p.StageOf roots names precision assignments stage) (wf : p.WellFormed)
    (named : p.Named roots names) : stage.DeclaresRead p roots precision := by
  refine ⟨?_, ?_, ?_⟩
  · intro id name used ha
    have caller := callerName?_eq_some_iff.2 (.inl ha)
    have hn := named.callerName used caller
    rw [h.mem_declarations_iff named.sound hn, h.mem_reads wf named hn, mem_declared, mem_stageInputs]
    constructor
    · rintro ⟨⟨-, ⟨⟨mem, -⟩, -⟩ | ⟨-, same, -⟩ | ⟨same, -⟩⟩, -⟩
      · exact mem
      · exact absurd same.symm (uniformStorage_ne _ _).1
      · cases same
    · intro mem
      exact ⟨⟨used, .inl ⟨⟨mem, isInput_iff.2 (.inl ⟨name, caller⟩)⟩, rfl, name, ha⟩⟩, rfl⟩
  · intro id name used hu
    have caller := callerName?_eq_some_iff.2 (.inr hu)
    have hn := named.callerName used caller
    rw [h.mem_declarations_iff named.sound hn, h.mem_reads wf named hn, mem_declared, mem_stageInputs]
    constructor
    · rintro ⟨⟨-, ⟨-, same, -⟩ | ⟨⟨mem, -⟩, -⟩ | ⟨same, -⟩⟩, -⟩
      · exact absurd same (uniformStorage_ne _ _).1
      · exact mem
      · exact absurd same (uniformStorage_ne _ _).2
    · intro mem
      exact ⟨⟨used, .inr (.inl ⟨⟨mem, isInput_iff.2 (.inl ⟨name, caller⟩)⟩, rfl, name, hu⟩)⟩, rfl⟩
  · intro d mem other
    obtain ⟨⟨storage, id⟩, listed, declares⟩ := exists_of_forall₂_right h.declarations mem
    obtain ⟨used, shape⟩ := mem_declared.1 listed
    have caller : ∃ name, p.callerName? id = some name := by
      rcases shape with ⟨-, -, name, ha⟩ | ⟨-, -, name, hu⟩ | ⟨same, -⟩
      · exact ⟨name, callerName?_eq_some_iff.2 (.inl ha)⟩
      · exact ⟨name, callerName?_eq_some_iff.2 (.inr hu)⟩
      · exact absurd (declares.storage.trans same) other
    obtain ⟨name, hc⟩ := caller
    have same : d.name = name := Option.some.inj (declares.name.symm.trans (named.callerName used hc))
    exact ⟨id, used, same ▸ hc⟩

/-- The declared varyings are those of the program, in order. -/
theorem StageOf.forall₂_varyings (h : p.StageOf roots names precision assignments stage) :
    List.Forall₂ (p.Declares names)
      ((p.inputs roots).varyings.map fun entry => (.varying, entry.1)) stage.varyings := by
  have kept := List.rel_filter (R := p.Declares names) (p := fun input => decide (input.1 = .varying))
    (q := fun d => decide (d.storage = .varying))
    (fun input d declares => by
      show decide _ = true ↔ decide _ = true
      rw [declares.storage])
    h.declarations
  have others : ∀ (ids : List Nat) (storage : Nat → Storage), (∀ id, storage id ≠ .varying) →
      (ids.map fun id => (storage id, id)).filter (fun input => decide (input.1 = .varying)) = [] := by
    intro ids storage other
    simp [List.filter_eq_nil_iff, other]
  have attributes := others
    (((p.inputs roots).attributes.map (·.1)).filter (p.stageInputs (assignments.map (·.2))).contains)
    (fun _ => .attribute) nofun
  have uniforms := others
    (((p.inputs roots).uniforms.map (·.1)).filter (p.stageInputs (assignments.map (·.2))).contains)
    (fun id => uniformStorage precision (p.kind id)) fun id => (uniformStorage_ne _ _).2
  have varyings : ((p.inputs roots).varyings.map fun entry => (Storage.varying, entry.1)).filter
      (fun input => decide (input.1 = .varying)) =
        (p.inputs roots).varyings.map fun entry => (.varying, entry.1) := by
    refine List.filter_eq_self.2 fun input mem => ?_
    obtain ⟨entry, -, rfl⟩ := List.mem_map.1 mem
    rfl
  rw [declared, List.filter_append, List.filter_append, attributes, uniforms, varyings] at kept
  exact kept

theorem targets_outputs {outputs : List Statement} (h : List.Forall₂ (p.Assigns names) assignments outputs) :
    outputs.filterMap Statement.target? = assignments.map (·.1) := by
  induction h with
  | nil => rfl
  | @cons assignment statement assignments outputs first _ ih =>
    obtain ⟨value, -, rfl⟩ := first
    show assignment.1 :: outputs.filterMap Statement.target? = _
    rw [ih, List.map_cons]

/-- A stage assigns what it is given to assign, in order. -/
theorem StageOf.targets_eq (h : p.StageOf roots names precision assignments stage) :
    stage.targets = assignments.map (·.1) := by
  obtain ⟨defs, outputs, names', body⟩ := h.body
  have locals : defs.filterMap Statement.target? = [] := by
    refine List.filterMap_eq_nil_iff.2 fun statement mem => ?_
    obtain ⟨id, -, between, text, value, rfl, -⟩ := exists_of_forall₂_right body.defs.defines mem
    rfl
  rw [Stage.targets, body.body_eq, List.filterMap_append, locals, targets_outputs body.outputs,
    List.nil_append]

/-! ### Both stages -/

variable {position colour : Nat} {options : Options} {varyings : List (String × Nat)} {pair : ShaderPair}

/-- A declared varying is one of the program, with its name. -/
theorem StageOf.exists_varying (h : p.StageOf roots names precision assignments stage) {d : Declaration}
    (mem : d ∈ stage.varyings) : ∃ v, p.Uses roots v ∧ p.IsVarying v ∧ names.nameOf? v = some d.name := by
  obtain ⟨input, listed, declares⟩ := exists_of_forall₂_right h.forall₂_varyings mem
  obtain ⟨⟨v, inner⟩, hv, rfl⟩ := List.mem_map.1 listed
  obtain ⟨used, interpolates⟩ := mem_varyings.1 hv
  exact ⟨v, used, ⟨inner, interpolates⟩, declares.name⟩

/-- Every varying belongs to the fragment stage: on the way from the colour there is none above it. -/
theorem VaryingsApart.inStage_colour {v : Nat} (apart : p.VaryingsApart position colour)
    (used : p.Uses [position, colour] v) (varying : p.IsVarying v) : p.InStage [colour] v := by
  have inner : ∀ {a},
      p.Reaches colour a → p.Reaches a v → p.ReachesBy (fun c => p.isInput c = false) a v := by
    intro a above below
    induction below using Relation.ReflTransGen.head_induction_on with
    | refl => exact .refl
    | @head a c step rest ih =>
      have operation : p.isInput a = false := by
        refine Bool.eq_false_iff.2 fun input => ?_
        exact apart.below a v above ⟨c, step.varyingInner? input⟩ (.head' step rest) varying
      exact .head ⟨operation, step⟩ (ih (above.tail step))
  obtain ⟨r, hr, path⟩ := used
  rcases List.mem_cons.1 hr with rfl | hr
  · exact absurd varying (apart.position v path)
  · rw [List.mem_singleton.1 hr] at path
    exact ⟨colour, List.mem_cons_self, inner .refl path⟩

/-- What the vertex stage assigns are its varyings and the position. -/
theorem Assembled.targets_vertex (h : p.Assembled position colour options names varyings pair) :
    pair.vertex.targets = pair.vertex.varyings.map (·.name) ++ ["gl_Position"] := by
  have declared : (p.inputs [position, colour]).varyings.map (fun entry => names.nameOf? entry.1) =
      pair.vertex.varyings.map fun d => some d.name := by
    have same := map_eq_of_forall₂ (f := fun input => names.nameOf? input.2)
      (g := fun d => some d.name) h.vertex.forall₂_varyings fun _ _ declares => declares.name
    rwa [List.map_map] at same
  have assigned : (p.inputs [position, colour]).varyings.map (fun entry => names.nameOf? entry.1) =
      varyings.map fun a => some a.1 :=
    map_eq_of_forall₂ h.outputs fun _ _ out => out.1
  have same : varyings.map (·.1) = pair.vertex.varyings.map (·.name) := by
    refine List.map_injective_iff.2 (fun _ _ => Option.some.inj) ?_
    rw [List.map_map, List.map_map]
    exact assigned.symm.trans declared
  rw [h.vertex.targets_eq, List.map_append, same]
  rfl

/-- **The two stages of a program link.** -/
theorem Assembled.links (h : p.Assembled position colour options names varyings pair)
    (wf : p.WellFormed) : pair.Links := by
  have sound := h.named.sound
  have roots := roots_of_outputs h.outputs
  have distinct : (pair.vertex.varyings.map (·.name)).Nodup :=
    (h.vertex.nodup_declarations sound).sublist (List.filter_sublist.map _)
  refine ⟨?_, h.targets_vertex, ?_, ?_, ?_, ?_, ?_⟩
  · have unique : Relator.RightUnique (p.Declares names) := fun _ _ _ => Declares.eq
    exact List.right_unique_forall₂' unique h.vertex.forall₂_varyings h.fragment.forall₂_varyings
  · intro d mem
    obtain ⟨v, -, -, hn⟩ := h.vertex.exists_varying mem
    have plain : d.name ≠ "gl_Position" := by
      intro same
      have output : d.name ∈ outputNames := same ▸ List.mem_cons_self
      exact sound.unreserved _ (mem_of_lookup hn) (List.mem_append_right _ output)
    rw [h.targets_vertex, List.count_append, List.count_eq_one_of_mem distinct (List.mem_map_of_mem mem),
      List.count_singleton, beq_false_of_ne plain.symm]
    rfl
  · intro d mem read
    obtain ⟨v, -, varying, hn⟩ := h.vertex.exists_varying mem
    have inStage := (h.vertex.mem_reads wf h.named hn).1 read
    rw [roots] at inStage
    exact vertexRoots_clear_iff.2 h.varyingsApart v inStage varying
  · intro d mem
    obtain ⟨v, used, varying, hn⟩ := h.fragment.exists_varying mem
    exact (h.fragment.mem_reads wf h.named hn).2 (h.varyingsApart.inStage_colour used varying)
  · intro d hd e he same
    obtain ⟨⟨storage, id⟩, listed, declares⟩ := exists_of_forall₂_right h.vertex.declarations hd
    obtain ⟨⟨storage', id'⟩, listed', declares'⟩ := exists_of_forall₂_right h.fragment.declarations he
    obtain rfl : id = id' := sound.id_eq declares.name (same ▸ declares'.name)
    obtain rfl : storage = storage' := storage_eq listed listed'
    exact declares.eq declares'
  · intro d mem stray
    obtain ⟨⟨storage, id⟩, listed, declares⟩ := exists_of_forall₂_right h.fragment.declarations mem
    obtain rfl : storage = .attribute := declares.storage.symm.trans stray
    obtain ⟨-, ⟨inStage, -, name, ha⟩ | ⟨-, same, -⟩ | ⟨same, -⟩⟩ := mem_declared.1 listed
    · exact fragment_clear_iff.2 h.attributesApart id name (mem_stageInputs.1 inStage).1 ha
    · exact (uniformStorage_ne _ _).1 same.symm
    · cases same

end Pool

namespace Program

variable {s : Session} {program : Program} {options : Options} {pair : ShaderPair}

/-- **The two stages link.**  They declare the same varyings in the same order; the vertex stage assigns each
of them once, before the position, and reads none; the fragment stage reads each of them and declares no
attribute; what both declare under one name has one declaration; and each stage declares those of the
program's attributes and uniforms that its statements read. -/
theorem assemble_links (reachable : s.Reachable) (given : program ∈ s.programs)
    (h : program.assemble s.workspace options = .ok pair) :
    let p := s.workspace.pool program.pool
    let roots := [program.position, program.colour]
    pair.Links ∧ pair.vertex.DeclaresRead p roots options.precision ∧
      pair.fragment.DeclaresRead p roots options.precision := by
  intro p roots
  have wf : p.WellFormed := reachable.valid.wellFormed program.pool
  obtain ⟨names, varyings, assembled⟩ :=
    Pool.assembled_of_assemble wf (present_of_reachable reachable given) h
  exact ⟨assembled.links wf, assembled.vertex.declaresRead wf assembled.named,
    assembled.fragment.declaresRead wf assembled.named⟩

/-- In the example session the attribute is interpolated, so the stages share one varying. -/
theorem sample_links :
    ∃ pair, assemble ⟨0, 0, 3⟩ (Session.sample .empty []).workspace .standard = .ok pair ∧ pair.Links ∧
      pair.vertex.DeclaresRead (Pool.sample .empty) [0, 3] .mediump ∧
      pair.fragment.DeclaresRead (Pool.sample .empty) [0, 3] .mediump := by
  obtain ⟨pair, h⟩ := sample_assembles
  exact ⟨pair, h, assemble_links Session.reachable_sample_empty List.mem_cons_self h⟩

end Program

end ShaderDag
