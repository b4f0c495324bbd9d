import ShaderDag.Proofs.Canonical
import ShaderDag.Proofs.Hygiene

/-!
# Kinds in generated source

Generated source is checked the way a reader of the shading language would: declared names have their
declared kinds, literals are scalars, and everything else follows from the signature tables.

* `Term.kind?` — the kind of a term under declared kinds of names;
* `Stage.Kinded` — every statement computes a value of the kind of what it writes to;
* `Stage.WellKinded` — a stage in which all statements are kinded and no local is a sampler;
* `Pool.Covers.kind_term` — a term has the kind of its node;
* `Hoists.kinded` — the definitions of locals are kinded, by induction over them;
* `Program.assemble_wellKinded` — both stages of every program are well-kinded.
-/

namespace ShaderDag

/-! ### The kind of a term -/

/-- The kind of a call on arguments of the given kinds. -/
def Callee.result? (args : List Kind) : Callee → Option Kind
  | .function f => f.result? args
  | .constructor kind => if kind.canConstruct args then some kind else none

namespace Term

mutual

/-- The kind of a term in which names have the kinds that `known` lists. -/
def kind? (known : List (String × Kind)) : Term → Option Kind
  | .name text => known.lookup text
  | .literal _ => some .float
  | .operator op lhs rhs => do
    let l ← lhs.kind? known
    let r ← rhs.kind? known
    op.result? l r
  | .apply callee args => do callee.result? (← kindAll? known args)

/-- The kinds of arguments. -/
def kindAll? (known : List (String × Kind)) : List Term → Option (List Kind)
  | [] => some []
  | t :: ts => do return (← t.kind? known) :: (← kindAll? known ts)

end

theorem kindAll?_eq {known : List (String × Kind)} {xs : List (Kind × Term)}
    (h : ∀ x ∈ xs, x.2.kind? known = some x.1) :
    kindAll? known (xs.map (·.2)) = some (xs.map (·.1)) := by
  induction xs with
  | nil => rfl
  | cons x xs ih =>
    rw [List.forall_mem_cons] at h
    simp [kindAll?, h.1, ih h.2]

/-- An operation on terms of some kinds has the kind that fits them. -/
theorem kind?_ofNode {known : List (String × Kind)} {kind : Kind} {m : Node (Kind × Term)}
    (operation : m.isInput = false) (children : ∀ x ∈ m.children, x.2.kind? known = some x.1)
    (fits : kind.Fits (m.map (·.1))) : (ofNode kind (m.map (·.2))).kind? known = some kind := by
  match m, operation, children, fits with
  | .operator op l r, _, children, fits =>
    have left := children l (by simp [Node.children])
    have right := children r (by simp [Node.children])
    have result : op.result? l.1 r.1 = some kind := fits
    rw [Node.map, ofNode, kind?, left, right]
    exact result
  | .call function args, _, children, fits =>
    have result : function.result? (args.map (·.1)) = some kind := fits
    rw [Node.children] at children
    rw [Node.map, ofNode, kind?, kindAll?_eq children]
    exact result
  | .construct args, _, children, fits =>
    have accepted : kind.canConstruct (args.map (·.1)) = true := fits
    rw [Node.children] at children
    rw [Node.map, ofNode, kind?, kindAll?_eq children]
    exact if_pos accepted
  | .literal value, _, _, fits =>
    have float : kind = .float := fits
    rw [float]
    rfl

end Term

/-! ### Kinded statements -/

/-- The local that a statement defines, with its declared kind. -/
def Statement.localKind? : Statement → Option (String × Kind)
  | define kind name _ => some (name, kind)
  | assign _ _ => none

namespace Stage

/-- The declared kinds of the inputs of a stage. -/
def inputKinds (s : Stage) : List (String × Kind) := s.declarations.map fun d => (d.name, d.kind)

/-- The declarations of varyings, in order. -/
def varyings (s : Stage) : List Declaration := s.declarations.filter (·.storage = .varying)

/-- The declared kinds of the varyings of a stage. -/
def varyingKinds (s : Stage) : List (String × Kind) := s.varyings.map fun d => (d.name, d.kind)

/-- The kind of what a statement writes to: a local has the kind of its definition, an output is a
`vec4`, and a varying has its declared kind.  Nothing else is written to. -/
def targetKind? (s : Stage) : Statement → Option Kind
  | .define kind _ _ => some kind
  | .assign name _ => if name ∈ outputNames then some .vec4 else s.varyingKinds.lookup name

/-- Every statement computes a value, of the kind of what it writes to; a definition makes the kind of
its local known to the statements behind it. -/
def Kinded (target : Statement → Option Kind) : (known : List (String × Kind)) → List Statement → Prop
  | _, [] => True
  | known, statement :: rest =>
    (∃ kind, statement.value.kind? known = some kind ∧ target statement = some kind) ∧
      Kinded target (statement.localKind?.toList ++ known) rest

/-- All statements of a stage are kinded, and none of its locals is a sampler. -/
structure WellKinded (s : Stage) : Prop where
  statements : Kinded s.targetKind? s.inputKinds s.body
  locals : ∀ statement ∈ s.body, ∀ name kind,
    statement.localKind? = some (name, kind) → kind ≠ .sampler2D

theorem kinded_append {target : Statement → Option Kind} {known : List (String × Kind)}
    {front back : List Statement} :
    Kinded target known (front ++ back) ↔ Kinded target known front ∧
      Kinded target ((front.filterMap Statement.localKind?).reverse ++ known) back := by
  induction front generalizing known with
  | nil => simp [Kinded]
  | cons statement front ih =>
    cases statement with
    | define kind name value => simp [Kinded, Statement.localKind?, ih, and_assoc]
    | assign name value => simp [Kinded, Statement.localKind?, ih, and_assoc, List.filterMap_cons]

end Stage

/-! ### Terms of nodes -/

namespace Pool

variable {p : Pool} {names : Binder} {roots : List Nat} {id : Nat} {known : List (String × Kind)}

/-- The names of the nodes of a stage have the kinds of these nodes. -/
def KnowsKinds (p : Pool) (names : Binder) (roots : List Nat) (known : List (String × Kind)) : Prop :=
  ∀ c name, p.InStage roots c → names.nameOf? c = some name → known.lookup name = some (p.kind c)

/-- **A term has the kind of its node.** -/
theorem Covers.kind_term {t : Term} (wf : p.WellFormed) (covers : p.Covers names roots)
    (knows : p.KnowsKinds names roots known) (mem : p.InStage roots id)
    (written : p.term names id = .ok t) : t.kind? known = some (p.kind id) := by
  refine covers.term_holds (motive := fun id t => t.kind? known = some (p.kind id)) wf knows
    (fun c e m he operation free same children => ?_) mem written
  have fits := wf.kinded c e he
  rw [same, Node.map_map] at fits
  rw [same, Node.isInput_map] at operation
  -- the children as pairs of a kind and a term
  let typed : Node (Kind × Term) := m.map fun x => (p.kind x.1, x.2)
  have shape : typed.isInput = false := by rw [Node.isInput_map, operation]
  have kinds : ∀ x ∈ typed.children, x.2.kind? known = some x.1 := by
    intro x hx
    obtain ⟨y, hy, rfl⟩ := Node.mem_children_map.1 hx
    exact (children y hy).2.2
  have made := Term.kind?_ofNode shape kinds (by rw [Node.map_map]; exact fits)
  rw [Node.map_map] at made
  rw [kind_eq he]
  exact made

end Pool

/-! ### Definitions of locals -/

namespace Hoists

variable {p : Pool} {names names' : Binder} {ids roots : List Nat} {defs : List Statement}

/-- **The definitions of locals are kinded.**  The induction is over the definitions; what carries it is
that the kinds of all names given so far are known.  A new local hides none of them, for its name was not
in use. -/
theorem kinded {target : Statement → Option Kind} {known : List (String × Kind)}
    (h : Hoists p names ids defs names') (wf : p.WellFormed) (sound : names.Sound)
    (covers : p.Covers names roots) (inStage : ∀ id ∈ ids, p.InStage roots id)
    (knows : p.KnowsKinds names roots known)
    (declared : ∀ kind name value, target (.define kind name value) = some kind) :
    Stage.Kinded target known defs ∧
      p.KnowsKinds names' roots ((defs.filterMap Statement.localKind?).reverse ++ known) := by
  induction h generalizing known with
  | done names => exact ⟨trivial, knows⟩
  | @define names names₁ names' id ids name value defs fresh written bound _ ih =>
    obtain ⟨-, unused, lookup, after⟩ := define_spec fresh bound
    obtain ⟨covers₁, covers₂⟩ := covers_define covers fresh bound
    have knows₁ : p.KnowsKinds names₁ roots known := fun c text hc hn => knows c text hc (lookup c ▸ hn)
    have knows₂ : p.KnowsKinds (names₁.withName id name) roots ((name, p.kind id) :: known) := by
      intro c text hc hn
      rw [after] at hn
      split at hn
      · next same =>
        cases hn
        rw [List.lookup_cons_self, same]
      · have used : text ∈ names.used := sound.bound_used _ (mem_of_lookup hn)
        have different : text ≠ name := fun same => unused (same ▸ used)
        rw [List.lookup_cons, beq_false_of_ne different]
        exact knows c text hc hn
    obtain ⟨restKinded, restKnown⟩ := ih (sound_define sound fresh bound) covers₂
      (fun c hc => inStage c (List.mem_cons_of_mem _ hc)) knows₂
    have value_kind := covers₁.kind_term wf knows₁ (inStage id List.mem_cons_self) written
    refine ⟨⟨⟨p.kind id, value_kind, declared _ _ _⟩, restKinded⟩, ?_⟩
    simpa [Statement.localKind?] using restKnown

end Hoists

/-! ### Whole stages -/

namespace Pool

variable {p : Pool} {names : Binder} {roots : List Nat} {precision : Precision}
  {assignments : List (String × Nat)} {stage : Stage} {position colour : Nat} {options : Options}
  {varyings : List (String × Nat)} {pair : ShaderPair}

/-- An input that is read is listed for declaration. -/
theorem exists_mem_declared {read : List Nat} {id : Nat} (precision : Precision)
    (used : p.Uses roots id) (input : p.isInput id = true) (listed : id ∈ read) :
    ∃ storage, (storage, id) ∈ p.declared roots precision read := by
  rcases isInput_iff.1 input with ⟨name, caller⟩ | varying
  · rcases callerName?_eq_some_iff.1 caller with ha | hu
    · exact ⟨_, mem_declared.2 ⟨used, .inl ⟨listed, rfl, name, ha⟩⟩⟩
    · exact ⟨_, mem_declared.2 ⟨used, .inr (.inl ⟨listed, rfl, name, hu⟩)⟩⟩
  · exact ⟨_, mem_declared.2 ⟨used, .inr (.inr ⟨rfl, varying⟩)⟩⟩

/-- The declared kind of an input that a stage lists is the kind of its node. -/
theorem StageOf.lookup_declared (h : p.StageOf roots names precision assignments stage)
    (sound : names.Sound) {storage : Storage} {id : Nat} {name : String}
    (listed : (storage, id) ∈ p.declared roots precision (p.stageInputs (assignments.map (·.2))))
    (hn : names.nameOf? id = some name) :
    stage.inputKinds.lookup name = some (p.kind id) ∧
      (storage = .varying → stage.varyingKinds.lookup name = some (p.kind id)) := by
  obtain ⟨d, hd, declares⟩ := exists_of_forall₂_left h.declarations listed
  obtain rfl : d.name = name := Option.some.inj (declares.name.symm.trans hn)
  have distinct := h.nodup_declarations sound
  have keys : ∀ ds : List Declaration, (ds.map fun d => (d.name, d.kind)).map (·.1) = ds.map (·.name) :=
    fun ds => List.map_map
  constructor
  · refine lookup_of_mem (by rwa [Stage.inputKinds, keys]) (List.mem_map.2 ⟨d, hd, ?_⟩)
    rw [declares.kind]
  · intro varying
    have kept : d ∈ stage.varyings :=
      List.mem_filter.2 ⟨hd, decide_eq_true (declares.storage.trans varying)⟩
    refine lookup_of_mem ?_ (List.mem_map.2 ⟨d, kept, ?_⟩)
    · rw [Stage.varyingKinds, keys]
      exact distinct.sublist (List.filter_sublist.map _)
    · rw [declares.kind]

/-- Every input that a stage reads is declared with the kind of its node. -/
theorem StageOf.knowsKinds (h : p.StageOf roots names precision assignments stage)
    (named : p.Named roots names) :
    p.KnowsKinds names (assignments.map (·.2)) stage.inputKinds := by
  intro c name hc hn
  obtain ⟨used, input⟩ := named.exists_name_iff.1 ⟨name, hn⟩
  obtain ⟨storage, listed⟩ := exists_mem_declared precision used input (mem_stageInputs.2 ⟨hc, input⟩)
  exact (h.lookup_declared named.sound listed hn).1

/-- Assignments define nothing, so each is checked with the kinds that were known before the first. -/
theorem kinded_outputs {outputs : List Statement} {known : List (String × Kind)}
    {target : Statement → Option Kind} (wf : p.WellFormed) (covers : p.Covers names roots)
    (knows : p.KnowsKinds names roots known) (inStage : ∀ a ∈ assignments, p.InStage roots a.2)
    (targets : ∀ a ∈ assignments, ∀ value, target (.assign a.1 value) = some (p.kind a.2))
    (h : List.Forall₂ (p.Assigns names) assignments outputs) : Stage.Kinded target known outputs := by
  induction h with
  | nil => trivial
  | cons first _ ih =>
    obtain ⟨value, written, rfl⟩ := first
    rw [List.forall_mem_cons] at inStage targets
    refine ⟨⟨_, covers.kind_term wf knows inStage.1 written, targets.1 value⟩, ?_⟩
    exact ih inStage.2 targets.2

/-- A node that gets a local is no sampler: samplers are uniforms, and these have names. -/
theorem Covers.kind_hoisted {id : Nat} (wf : p.WellFormed)
    (covers : p.Covers names (assignments.map (·.2))) (mem : id ∈ p.hoisted names assignments) :
    p.kind id ≠ .sampler2D := by
  intro sampler
  obtain ⟨inStage, unbound⟩ := covers.hoisted mem
  obtain ⟨e, he⟩ := exists_entry (covers.lt_size inStage)
  obtain ⟨n, node, shape⟩ := exists_node he (wf.descending id e he)
  obtain ⟨name, uniform⟩ := wf.exists_uniform he (kind_eq he ▸ sampler)
  have operation := covers.termClosed.operation id inStage unbound
  rw [Pool.isInput, node, Option.any_some, ← Node.isInput_map Fin.val, shape, uniform] at operation
  cases operation

/-- **Every stage is well-kinded,** if it assigns to targets of the kinds of the assigned nodes. -/
theorem StageOf.wellKinded (h : p.StageOf roots names precision assignments stage) (wf : p.WellFormed)
    (named : p.Named roots names)
    (targets : ∀ a ∈ assignments, ∀ value, stage.targetKind? (.assign a.1 value) = some (p.kind a.2)) :
    stage.WellKinded := by
  obtain ⟨defs, outputs, names', body⟩ := h.body
  have inStage : ∀ id ∈ p.hoisted names assignments, p.InStage (assignments.map (·.2)) id :=
    fun id mem => (h.covers.hoisted mem).1
  have locals : ∀ kind name value, stage.targetKind? (.define kind name value) = some kind :=
    fun _ _ _ => rfl
  obtain ⟨defsKinded, knows'⟩ := body.defs.kinded wf named.sound h.covers inStage (h.knowsKinds named) locals
  have covers' := h.covers.mono fun id name hn => body.defs.nameOf?_mono hn
  refine ⟨?_, ?_⟩
  · rw [body.body_eq, Stage.kinded_append]
    exact ⟨defsKinded, kinded_outputs wf covers' knows'
      (fun a ha => inStage_root (List.mem_map_of_mem ha)) targets body.outputs⟩
  · intro statement mem name kind defined
    rw [body.body_eq] at mem
    rcases List.mem_append.1 mem with mem | mem
    · obtain ⟨id, hid, between, text, value, rfl, -⟩ := exists_of_forall₂_right body.defs.defines mem
      cases defined
      exact h.covers.kind_hoisted wf hid
    · obtain ⟨a, -, value, -, rfl⟩ := exists_of_forall₂_right body.outputs mem
      cases defined

/-- A varying has the kind of what it interpolates. -/
theorem WellFormed.kind_varying {v inner : Nat} (wf : p.WellFormed)
    (h : p.varyingInner? v = some inner) : p.kind v = p.kind inner := by
  obtain ⟨i, rfl, hn⟩ := varyingInner?_eq_some_iff.1 h
  obtain ⟨e, he, shape⟩ := node?_eq_some_iff.1 hn
  have fits := wf.kinded v e he
  rw [← shape] at fits
  rw [kind_eq he]
  exact fits.1

/-- Each varying that the vertex stage assigns has the kind of what is assigned to it. -/
theorem Assembled.target_varying (h : p.Assembled position colour options names varyings pair)
    (wf : p.WellFormed) {assignment : String × Nat} (mem : assignment ∈ varyings) (value : Term) :
    pair.vertex.targetKind? (.assign assignment.1 value) = some (p.kind assignment.2) := by
  obtain ⟨⟨v, inner⟩, listed, hn, same⟩ := exists_of_forall₂_right h.outputs mem
  obtain ⟨used, hv⟩ := Pool.mem_varyings.1 listed
  have unreserved := h.named.sound.unreserved _ (mem_of_lookup hn)
  have plain : assignment.1 ∉ outputNames := fun output => unreserved (List.mem_append_right _ output)
  have declared := h.vertex.lookup_declared h.named.sound
    (mem_declared.2 ⟨used, .inr (.inr ⟨rfl, inner, hv⟩)⟩) hn
  rw [Stage.targetKind?, if_neg plain, declared.2 rfl, same, wf.kind_varying hv]

end Pool

namespace Program

variable {s : Session} {program : Program} {options : Options} {pair : ShaderPair}

/-- **Generated source is well-kinded.**  In both stages, with every declared name at its declared kind and
every literal a scalar, the signature tables give each statement's value a kind, and it is the declared kind
of the local or varying that the statement writes to, and `vec4` for the outputs; no local is a sampler. -/
theorem assemble_wellKinded (reachable : s.Reachable) (given : program ∈ s.programs)
    (h : program.assemble s.workspace options = .ok pair) :
    pair.vertex.WellKinded ∧ pair.fragment.WellKinded := by
  have wf := reachable.valid.wellFormed program.pool
  have held := reachable.valid.programs program given
  obtain ⟨names, varyings, assembled⟩ :=
    Pool.assembled_of_assemble wf (present_of_reachable reachable given) h
  refine ⟨assembled.vertex.wellKinded wf assembled.named ?_,
    assembled.fragment.wellKinded wf assembled.named ?_⟩
  · intro a ha value
    rcases List.mem_append.1 ha with ha | ha
    · exact assembled.target_varying wf ha value
    · rw [List.mem_singleton.1 ha, held.position.kind_eq]
      rfl
  · intro a ha value
    rw [List.mem_singleton.1 ha, held.colour.kind_eq]
    rfl

/-- In the example session the fragment stage has a local, and its square is the colour. -/
theorem sample_wellKinded :
    ∃ pair, assemble ⟨0, 0, 3⟩ (Session.sample .empty []).workspace .standard = .ok pair ∧
      pair.vertex.WellKinded ∧ pair.fragment.WellKinded := by
  obtain ⟨pair, h⟩ := sample_assembles
  exact ⟨pair, h, assemble_wellKinded Session.reachable_sample_empty List.mem_cons_self h⟩

end Program

end ShaderDag
