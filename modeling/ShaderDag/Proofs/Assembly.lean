import ShaderDag.Proofs.Hoist
import ShaderDag.Proofs.Session

/-!
# When a program can be assembled

Only three things stand in the way of the source of a program: a name that the caller chose, a varying
that the vertex stage would read, and an attribute that the fragment stage would read.  Names of
varyings and of locals, and the terms of all statements, are always there.

* `Pool.Declares` — the declarations of a stage, one for each listed input;
* `Pool.StageOf`, `Pool.Assembled` — what is known of the two stages;
* `Pool.assemble_cases` — the four ways in which assembly ends;
* `Program.assembles_iff` — exactly when there is source, and what is wrong otherwise.
-/

namespace ShaderDag

namespace Pool

variable {p : Pool} {roots : List Nat} {names : Binder} {position colour : Nat} {id : Nat}
  {options : Options}

/-! ### Declarations -/

theorem name_eq_ok {text : String} (h : names.nameOf? id = some text) : names.name id = .ok text := by
  rw [Binder.name, h]

/-- The inputs that a stage declares, each with its storage. -/
def declared (p : Pool) (roots : List Nat) (precision : Precision) (read : List Nat) :
    List (Storage × Nat) :=
  (((p.inputs roots).attributes.map (·.1)).filter read.contains).map (fun id => (.attribute, id)) ++
    (((p.inputs roots).uniforms.map (·.1)).filter read.contains).map
      (fun id => (uniformStorage precision (p.kind id), id)) ++
    (p.inputs roots).varyings.map fun entry => (.varying, entry.1)

/-- Attributes and uniforms are declared where they are read, and varyings always. -/
theorem mem_declared {precision : Precision} {read : List Nat} {storage : Storage} :
    (storage, id) ∈ p.declared roots precision read ↔ p.Uses roots id ∧
      ((id ∈ read ∧ storage = .attribute ∧ ∃ name, p.attributeName? id = some name) ∨
       (id ∈ read ∧ storage = uniformStorage precision (p.kind id) ∧ ∃ name, p.uniformName? id = some name) ∨
       (storage = .varying ∧ p.IsVarying id)) := by
  simp only [declared, List.mem_append, List.mem_map, List.mem_filter, List.contains_iff_mem,
    Prod.mk.injEq, Prod.exists, exists_and_right, exists_eq_right, mem_attributes, mem_uniforms,
    mem_varyings, IsVarying]
  constructor
  · rintro ((⟨c, ⟨⟨name, used, hn⟩, hr⟩, rfl, rfl⟩ | ⟨c, ⟨⟨name, used, hn⟩, hr⟩, rfl, rfl⟩) |
      ⟨c, ⟨inner, used, hi⟩, rfl, rfl⟩)
    · exact ⟨used, .inl ⟨hr, rfl, name, hn⟩⟩
    · exact ⟨used, .inr (.inl ⟨hr, rfl, name, hn⟩)⟩
    · exact ⟨used, .inr (.inr ⟨rfl, inner, hi⟩)⟩
  · rintro ⟨used, ⟨hr, rfl, name, hn⟩ | ⟨hr, rfl, name, hn⟩ | ⟨rfl, inner, hi⟩⟩
    · exact .inl (.inl ⟨id, ⟨⟨name, used, hn⟩, hr⟩, rfl, rfl⟩)
    · exact .inl (.inr ⟨id, ⟨⟨name, used, hn⟩, hr⟩, rfl, rfl⟩)
    · exact .inr ⟨id, ⟨inner, used, hi⟩, rfl, rfl⟩

theorem isInput_of_mem_declared {precision : Precision} {read : List Nat} {storage : Storage}
    (h : (storage, id) ∈ p.declared roots precision read) : p.Uses roots id ∧ p.isInput id = true := by
  obtain ⟨used, shape⟩ := mem_declared.1 h
  refine ⟨used, isInput_iff.2 ?_⟩
  rcases shape with ⟨-, -, name, hn⟩ | ⟨-, -, name, hn⟩ | ⟨-, varying⟩
  · exact .inl ⟨name, callerName?_eq_some_iff.2 (.inl hn)⟩
  · exact .inl ⟨name, callerName?_eq_some_iff.2 (.inr hn)⟩
  · exact .inr varying

theorem nodup_declared (p : Pool) (roots : List Nat) (precision : Precision) (read : List Nat) :
    ((p.declared roots precision read).map (·.2)).Nodup := by
  have all := nodup_input_keys p roots
  rw [List.map_append, keys_varyingNames, Inputs.callerNames, List.map_append] at all
  refine all.sublist ?_
  simp only [declared, List.map_append, List.map_map, Function.comp_def, List.map_id']
  exact (List.filter_sublist.append List.filter_sublist).append (List.Sublist.refl _)

/-- The declaration of an input under its name. -/
def declare (p : Pool) (names : Binder) (input : Storage × Nat) : Except Failure Declaration := do
  return ⟨input.1, p.kind input.2, ← names.name input.2⟩

/-- A declaration is that of an input under its name. -/
structure Declares (p : Pool) (names : Binder) (input : Storage × Nat) (d : Declaration) : Prop where
  storage : d.storage = input.1
  kind : d.kind = p.kind input.2
  name : names.nameOf? input.2 = some d.name

theorem declarations_eq_mapM (precision : Precision) (read : List Nat) :
    (p.inputs roots).declarations p names precision read =
      (p.declared roots precision read).mapM (p.declare names) := by
  simp only [Inputs.declarations, declared, List.mapM_append, List.mapM_map, bind_assoc, pure_bind]
  rfl

theorem declarations_eq {precision : Precision} {read : List Nat} {ds : List Declaration}
    (h : List.Forall₂ (p.Declares names) (p.declared roots precision read) ds) :
    (p.inputs roots).declarations p names precision read = .ok ds := by
  rw [declarations_eq_mapM]
  refine mapM_eq_ok_of_forall₂ (h.imp fun input d hd => ?_)
  rw [declare, name_eq_ok hd.name, ← hd.storage, ← hd.kind]
  rfl

/-! ### The vertex stage and the fragment stage -/

/-- What the vertex stage computes: what the varyings interpolate, and the position. -/
def vertexRoots (p : Pool) (position colour : Nat) : List Nat :=
  (p.inputs [position, colour]).varyings.map (·.2) ++ [position]

theorem uses_vertexRoots {r : Nat} (h : r ∈ p.vertexRoots position colour) :
    p.Uses [position, colour] r := by
  rcases List.mem_append.1 h with h | h
  · obtain ⟨⟨v, inner⟩, mem, rfl⟩ := List.mem_map.1 h
    obtain ⟨used, hv⟩ := mem_varyings.1 mem
    exact used.child (child_of_varyingInner? hv)
  · rw [List.mem_singleton.1 h]
    exact ⟨position, by simp, .refl⟩

theorem uses_colour : p.Uses [position, colour] colour := ⟨colour, by simp, .refl⟩

/-- The varyings are all for the fragment stage: the position reaches none, and none that the colour
reaches has another one strictly below it. -/
structure VaryingsApart (p : Pool) (position colour : Nat) : Prop where
  position : ∀ v, p.Reaches position v → ¬p.IsVarying v
  below : ∀ w v, p.Reaches colour w → p.IsVarying w → Relation.TransGen p.Child w v → ¬p.IsVarying v

/-- The attributes are all for the vertex stage: between the colour and an attribute there is a
varying. -/
def AttributesApart (p : Pool) (colour : Nat) : Prop :=
  ∀ a name, p.ReachesBy (fun c => ¬p.IsVarying c) colour a → p.attributeName? a ≠ some name

/-- **The vertex stage reads no varying exactly if the varyings are apart.**  Where one varying lies
below another or below the position, the first one on the way is read. -/
theorem vertexRoots_clear_iff :
    (∀ v, p.InStage (p.vertexRoots position colour) v → ¬p.IsVarying v) ↔
      p.VaryingsApart position colour := by
  constructor
  · intro clear
    refine ⟨?_, ?_⟩
    · intro v path varying
      obtain ⟨w, hw, -, inner⟩ := exists_first_varying path varying
      exact clear w ⟨position, by simp [vertexRoots], inner⟩ hw
    · intro w v path hw below varying
      obtain ⟨c, step, rest⟩ := Relation.TransGen.head'_iff.1 below
      have inner := step.varyingInner? hw.isInput
      have listed : (w, c) ∈ (p.inputs [position, colour]).varyings :=
        mem_varyings.2 ⟨⟨colour, by simp, path⟩, inner⟩
      obtain ⟨u, hu, -, first⟩ := exists_first_varying rest varying
      exact clear u ⟨c, List.mem_append_left _ (List.mem_map.2 ⟨(w, c), listed, rfl⟩), first⟩ hu
  · intro apart v reached varying
    obtain ⟨r, hr, path⟩ := reached
    rcases List.mem_append.1 hr with hr | hr
    · obtain ⟨⟨w, inner⟩, listed, rfl⟩ := List.mem_map.1 hr
      obtain ⟨⟨top, htop, above⟩, hw⟩ := mem_varyings.1 listed
      have below : Relation.TransGen p.Child w v := .head' (child_of_varyingInner? hw) path.reaches
      rcases List.mem_cons.1 htop with rfl | htop
      · exact apart.position w above ⟨inner, hw⟩
      · rw [List.mem_singleton.1 htop] at above
        exact apart.below w v above ⟨inner, hw⟩ below varying
    · rw [List.mem_singleton.1 hr] at path
      exact apart.position v path.reaches varying

theorem fragment_clear_iff :
    (∀ a name, p.InStage [colour] a → p.attributeName? a ≠ some name) ↔ p.AttributesApart colour := by
  simp only [InStage, List.mem_singleton, exists_eq_left, reachesBy_inner_iff, AttributesApart]

/-! ### The four outcomes -/

/-- What is known of one stage of a program. -/
structure StageOf (p : Pool) (roots : List Nat) (names : Binder) (precision : Precision)
    (assignments : List (String × Nat)) (stage : Stage) : Prop where
  covers : p.Covers names (assignments.map (·.2))
  body : ∃ defs outputs names', p.StageBody names assignments stage.body defs outputs names'
  declarations : List.Forall₂ (p.Declares names)
    (p.declared roots precision (p.stageInputs (assignments.map (·.2)))) stage.declarations

/-- No name is declared twice: no input is listed twice, and no two nodes have one name. -/
theorem StageOf.nodup_declarations {precision : Precision} {assignments : List (String × Nat)}
    {stage : Stage} (h : p.StageOf roots names precision assignments stage)
    (sound : names.Sound) : (stage.declarations.map (·.name)).Nodup :=
  sound.nodup_names (h.declarations.imp fun _ _ declares => declares.name)
    (nodup_declared p roots precision _)

/-- Every input that a stage reads is declared, with the storage of its operation. -/
theorem StageOf.exists_declaration {precision : Precision} {assignments : List (String × Nat)}
    {stage : Stage} {name : String} (h : p.StageOf roots names precision assignments stage)
    (named : p.Named roots names) (mem : p.InStage (assignments.map (·.2)) id)
    (hn : names.nameOf? id = some name) :
    ∃ d ∈ stage.declarations,
      ((d.storage = .attribute ∧ p.attributeName? id = some name) ∨
        ((∃ precision, d.storage = .uniform precision) ∧ p.uniformName? id = some name) ∨
        (d.storage = .varying ∧ p.IsVarying id)) ∧ d.name = name := by
  obtain ⟨used, input⟩ := named.exists_name_iff.1 ⟨name, hn⟩
  have read : id ∈ p.stageInputs (assignments.map (·.2)) := mem_stageInputs.2 ⟨mem, input⟩
  have declared : ∀ {storage}, (storage, id) ∈ p.declared roots precision
      (p.stageInputs (assignments.map (·.2))) →
        ∃ d ∈ stage.declarations, d.storage = storage ∧ d.name = name := by
    intro storage listed
    obtain ⟨d, hd, declares⟩ := exists_of_forall₂_left h.declarations listed
    have same := declares.name
    rw [hn] at same
    exact ⟨d, hd, declares.storage, (Option.some.inj same).symm⟩
  rcases isInput_iff.1 input with ⟨text, caller⟩ | varying
  · have same := named.callerName used caller
    rw [hn] at same
    cases same
    rcases callerName?_eq_some_iff.1 caller with ha | hu
    · obtain ⟨d, hd, storage, same⟩ := declared (mem_declared.2 ⟨used, .inl ⟨read, rfl, name, ha⟩⟩)
      exact ⟨d, hd, .inl ⟨storage, ha⟩, same⟩
    · obtain ⟨d, hd, storage, same⟩ :=
        declared (mem_declared.2 ⟨used, .inr (.inl ⟨read, rfl, name, hu⟩)⟩)
      exact ⟨d, hd, .inr (.inl ⟨⟨_, storage⟩, hu⟩), same⟩
  · obtain ⟨d, hd, storage, same⟩ := declared (mem_declared.2 ⟨used, .inr (.inr ⟨rfl, varying⟩)⟩)
    exact ⟨d, hd, .inr (.inr ⟨storage, varying⟩), same⟩

theorem exists_stageOf (wf : p.WellFormed) (named : p.Named roots names)
    (present : ∀ r ∈ roots, r < p.size) (precision : Precision) (assignments : List (String × Nat))
    (used : ∀ a ∈ assignments, p.Uses roots a.2) : ∃ declarations body, ∀ version header,
      p.StageOf roots names precision assignments ⟨version, header, declarations, body⟩ := by
  have within : ∀ id, p.InStage (assignments.map (·.2)) id → p.Uses roots id := by
    intro id mem
    refine mem.uses fun r hr => ?_
    obtain ⟨a, ha, rfl⟩ := List.mem_map.1 hr
    exact used a ha
  have covers : p.Covers names (assignments.map (·.2)) := by
    refine ⟨?_, fun id mem input => named.exists_name_iff.2 ⟨within id mem, input⟩⟩
    intro r hr
    obtain ⟨top, htop, path⟩ := within r (inStage_root hr)
    exact path.lt_size (present top htop)
  obtain ⟨body, defs, outputs, names', hbody⟩ := exists_stageBody wf covers
  have declared : ∀ input ∈ p.declared roots precision (p.stageInputs (assignments.map (·.2))),
      ∃ d, p.Declares names input d := by
    intro input mem
    obtain ⟨text, hn⟩ := named.exists_name_iff.2 (isInput_of_mem_declared mem)
    exact ⟨⟨input.1, p.kind input.2, text⟩, rfl, rfl, hn⟩
  obtain ⟨declarations, hdeclarations⟩ := exists_forall₂ declared
  exact ⟨declarations, body, fun _ _ => ⟨covers, ⟨defs, outputs, names', hbody⟩, hdeclarations⟩⟩

/-- A varying is assigned what it interpolates. -/
def Outputs (names : Binder) (entry : Nat × Nat) (assignment : String × Nat) : Prop :=
  names.nameOf? entry.1 = some assignment.1 ∧ assignment.2 = entry.2

theorem exists_outputs (named : p.Named [position, colour] names) :
    ∃ varyings, List.Forall₂ (Outputs names) (p.inputs [position, colour]).varyings varyings := by
  refine exists_forall₂ ?_
  rintro ⟨v, inner⟩ listed
  obtain ⟨used, hv⟩ := mem_varyings.1 listed
  obtain ⟨text, hn⟩ := named.exists_name_iff.2 ⟨used, IsVarying.isInput ⟨inner, hv⟩⟩
  exact ⟨(text, inner), hn, rfl⟩

/-- What is known of the source of a program. -/
structure Assembled (p : Pool) (position colour : Nat) (options : Options) (names : Binder)
    (varyings : List (String × Nat)) (pair : ShaderPair) : Prop where
  named : p.Named [position, colour] names
  varyingsApart : p.VaryingsApart position colour
  attributesApart : p.AttributesApart colour
  outputs : List.Forall₂ (Outputs names) (p.inputs [position, colour]).varyings varyings
  vertex : p.StageOf [position, colour] names options.precision (varyings ++ [("gl_Position", position)])
    pair.vertex
  fragment : p.StageOf [position, colour] names options.precision [("gl_FragColor", colour)] pair.fragment
  headers : pair.vertex.version = options.version ∧ pair.vertex.precision = none ∧
    pair.fragment.version = options.version ∧ pair.fragment.precision = some options.precision

theorem roots_of_outputs {varyings : List (String × Nat)}
    (h : List.Forall₂ (Outputs names) (p.inputs [position, colour]).varyings varyings) :
    (varyings ++ [("gl_Position", position)]).map (·.2) = p.vertexRoots position colour := by
  have same := map_eq_of_forall₂ (f := Prod.snd) (g := Prod.snd) h fun _ _ out => out.2.symm
  rw [List.map_append, ← same]
  rfl

/-- The varying that the vertex stage would read first. -/
def strayVarying? (p : Pool) (position colour : Nat) : Option (Nat × Nat) :=
  (p.inputs [position, colour]).varyings.find? fun (id, _) =>
    (p.stageInputs (p.vertexRoots position colour)).contains id

/-- The attribute that the fragment stage would read first. -/
def strayAttribute? (p : Pool) (position colour : Nat) : Option (Nat × String) :=
  (p.inputs [position, colour]).attributes.find? fun (id, _) => (p.stageInputs [colour]).contains id

theorem assemble_of_bind_error {f : Failure} (h : (p.inputs [position, colour]).bind = .error f) :
    p.assemble position colour options = .error f := by
  rw [assemble]
  simp only [h]
  rfl

theorem assemble_of_strayVarying {entry : Nat × Nat} {text : String}
    (bound : (p.inputs [position, colour]).bind = .ok names)
    (stray : p.strayVarying? position colour = some entry) (named : names.nameOf? entry.1 = some text) :
    p.assemble position colour options = .error (.ofCause (.varyingInVertex text)) := by
  rw [strayVarying?, vertexRoots] at stray
  rw [assemble]
  simp only [bound, stray]
  show (do throw (Failure.ofCause (.varyingInVertex (← names.name entry.1))) : Except Failure ShaderPair) = _
  rw [name_eq_ok named]
  rfl

theorem assemble_of_strayAttribute {entry : Nat × String} {text : String}
    (bound : (p.inputs [position, colour]).bind = .ok names)
    (clear : p.strayVarying? position colour = none)
    (stray : p.strayAttribute? position colour = some entry) (named : names.nameOf? entry.1 = some text) :
    p.assemble position colour options = .error (.ofCause (.attributeInFragment text)) := by
  rw [strayVarying?, vertexRoots] at clear
  rw [strayAttribute?] at stray
  rw [assemble]
  simp only [bound, clear, stray]
  show (do throw (Failure.ofCause (.attributeInFragment (← names.name entry.1))) :
    Except Failure ShaderPair) = _
  rw [name_eq_ok named]
  rfl

theorem strayVarying?_eq_none_iff :
    p.strayVarying? position colour = none ↔ p.VaryingsApart position colour := by
  rw [← vertexRoots_clear_iff, strayVarying?, List.find?_eq_none]
  constructor
  · intro clear v reached varying
    have used := reached.uses fun r hr => uses_vertexRoots hr
    obtain ⟨inner, hv⟩ := varying
    have := clear (v, inner) (mem_varyings.2 ⟨used, hv⟩)
    rw [List.contains_iff_mem, mem_stageInputs] at this
    exact this ⟨reached, IsVarying.isInput ⟨inner, hv⟩⟩
  · rintro clear ⟨v, inner⟩ listed
    rw [List.contains_iff_mem, mem_stageInputs]
    exact fun h => clear v h.1 ⟨inner, (mem_varyings.1 listed).2⟩

theorem strayAttribute?_eq_none_iff :
    p.strayAttribute? position colour = none ↔ p.AttributesApart colour := by
  rw [← fragment_clear_iff, strayAttribute?, List.find?_eq_none]
  constructor
  · intro clear a name reached hn
    have used : p.Uses [position, colour] a := reached.uses fun r hr => by
      rw [List.mem_singleton.1 hr]
      exact uses_colour
    have := clear (a, name) (mem_attributes.2 ⟨used, hn⟩)
    rw [List.contains_iff_mem, mem_stageInputs] at this
    exact this ⟨reached, isInput_iff.2 (.inl ⟨name, callerName?_eq_some_iff.2 (.inl hn)⟩)⟩
  · rintro clear ⟨a, name⟩ listed
    rw [List.contains_iff_mem, mem_stageInputs]
    exact fun h => clear a name h.1 (mem_attributes.1 listed).2

theorem assemble_of_clear {varyings : List (String × Nat)} {pair : ShaderPair}
    (bound : (p.inputs [position, colour]).bind = .ok names)
    (h : p.Assembled position colour options names varyings pair) :
    p.assemble position colour options = .ok pair := by
  have noVarying := strayVarying?_eq_none_iff.2 h.varyingsApart
  have noAttribute : p.strayAttribute? position colour = none :=
    strayAttribute?_eq_none_iff.2 h.attributesApart
  have run : ((p.inputs [position, colour]).varyings.mapM fun (id, inner) => do
      return (← names.name id, inner) : Except Failure (List (String × Nat))) = .ok varyings := by
    refine mapM_eq_ok_of_forall₂ (h.outputs.imp ?_)
    rintro ⟨v, inner⟩ ⟨text, root⟩ ⟨hn, rfl⟩
    simp only [name_eq_ok hn]
    rfl
  obtain ⟨_, _, _, vertexBody⟩ := h.vertex.body
  obtain ⟨_, _, _, fragmentBody⟩ := h.fragment.body
  have vertexDeclared := declarations_eq h.vertex.declarations
  have fragmentDeclared := declarations_eq h.fragment.declarations
  rw [roots_of_outputs h.outputs, vertexRoots] at vertexDeclared
  rw [strayVarying?, vertexRoots] at noVarying
  rw [strayAttribute?] at noAttribute
  rw [List.map_singleton] at fragmentDeclared
  obtain ⟨⟨version, header, _, _⟩, ⟨version', header', _, _⟩⟩ := pair
  obtain ⟨rfl, rfl, rfl, rfl⟩ : version = options.version ∧ header = none ∧
    version' = options.version ∧ header' = some options.precision := h.headers
  simp only [assemble, bound, ok_bind, noVarying, noAttribute, run, vertexBody.stageBody_eq,
    fragmentBody.stageBody_eq, vertexDeclared, fragmentDeclared]
  rfl

/-- With names for the inputs and the stages apart, everything else is there. -/
theorem exists_assembled (wf : p.WellFormed) (present : ∀ r ∈ [position, colour], r < p.size)
    (named : p.Named [position, colour] names)
    (varyingsApart : p.VaryingsApart position colour) (attributesApart : p.AttributesApart colour)
    (options : Options) : ∃ varyings pair, p.Assembled position colour options names varyings pair := by
  obtain ⟨varyings, outputs⟩ := exists_outputs named
  have roots := roots_of_outputs outputs
  obtain ⟨vertexDeclarations, vertexBody, vertex⟩ :=
    exists_stageOf wf named present options.precision (varyings ++ [("gl_Position", position)])
      fun a ha => uses_vertexRoots (roots ▸ List.mem_map_of_mem ha)
  obtain ⟨fragmentDeclarations, fragmentBody, fragment⟩ :=
    exists_stageOf wf named present options.precision [("gl_FragColor", colour)] fun a ha => by
        rw [List.mem_singleton.1 ha]
        exact uses_colour
  exact ⟨varyings, ⟨⟨options.version, none, vertexDeclarations, vertexBody⟩,
    ⟨options.version, some options.precision, fragmentDeclarations, fragmentBody⟩⟩,
    named, varyingsApart, attributesApart, outputs, vertex _ _, fragment _ _, rfl, rfl, rfl, rfl⟩

/-- **The four ways in which assembly ends.**  A name is refused, the vertex stage would read a varying,
the fragment stage would read an attribute, or there is source. -/
theorem assemble_cases (wf : p.WellFormed) (present : ∀ r ∈ [position, colour], r < p.size)
    (options : Options) :
    (∃ f, (p.inputs [position, colour]).bind = .error f ∧
      p.assemble position colour options = .error f) ∨
    ∃ names, (p.inputs [position, colour]).bind = .ok names ∧
      ((∃ entry text, p.strayVarying? position colour = some entry ∧ names.nameOf? entry.1 = some text ∧
        p.assemble position colour options = .error (.ofCause (.varyingInVertex text))) ∨
      p.strayVarying? position colour = none ∧
        ((∃ entry text, p.strayAttribute? position colour = some entry ∧
          names.nameOf? entry.1 = some text ∧
          p.assemble position colour options = .error (.ofCause (.attributeInFragment text))) ∨
        p.strayAttribute? position colour = none ∧
          ∃ varyings pair, p.Assembled position colour options names varyings pair ∧
            p.assemble position colour options = .ok pair)) := by
  cases bound : (p.inputs [position, colour]).bind with
  | error f => exact .inl ⟨f, rfl, assemble_of_bind_error bound⟩
  | ok names =>
    have named := named_of_bind bound
    refine .inr ⟨names, rfl, ?_⟩
    cases varying : p.strayVarying? position colour with
    | some entry =>
      obtain ⟨used, hv⟩ := mem_varyings.1 (List.mem_of_find?_eq_some varying)
      obtain ⟨text, hn⟩ := named.exists_name_iff.2 ⟨used, IsVarying.isInput ⟨_, hv⟩⟩
      exact .inl ⟨entry, text, rfl, hn, assemble_of_strayVarying bound varying hn⟩
    | none =>
      refine .inr ⟨rfl, ?_⟩
      cases stray : p.strayAttribute? position colour with
      | some entry =>
        obtain ⟨used, ha⟩ := mem_attributes.1 (List.mem_of_find?_eq_some stray)
        have hn := named.callerName used (callerName?_eq_some_iff.2 (.inl ha))
        exact .inl ⟨entry, entry.2, rfl, hn, assemble_of_strayAttribute bound varying stray hn⟩
      | none =>
        obtain ⟨varyings, pair, assembled⟩ := exists_assembled wf present named
          (strayVarying?_eq_none_iff.1 varying) (strayAttribute?_eq_none_iff.1 stray) options
        exact .inr ⟨rfl, varyings, pair, assembled, assemble_of_clear bound assembled⟩

/-- Source that was assembled is known. -/
theorem assembled_of_assemble {pair : ShaderPair} (wf : p.WellFormed)
    (present : ∀ r ∈ [position, colour], r < p.size)
    (h : p.assemble position colour options = .ok pair) :
    ∃ names varyings, p.Assembled position colour options names varyings pair := by
  rcases p.assemble_cases wf present options with ⟨f, -, run⟩ |
    ⟨names, -, ⟨_, _, -, -, run⟩ | ⟨-, ⟨_, _, -, -, run⟩ | ⟨-, varyings, pair', assembled, run⟩⟩⟩
  all_goals rw [h] at run
  · cases run
  · cases run
  · cases run
  · cases run
    exact ⟨names, varyings, assembled⟩

end Pool

/-! ### Programs of a session -/

namespace Program

variable {s : Session} {program : Program}

/-- The two nodes of a program that was given out are there. -/
theorem present_of_reachable (reachable : s.Reachable) (given : program ∈ s.programs) :
    ∀ r ∈ [program.position, program.colour], r < (s.workspace.pool program.pool).size := by
  have held := reachable.valid.programs program given
  intro r hr
  rcases List.mem_cons.1 hr with rfl | hr
  · exact held.position.lt
  · rw [List.mem_singleton.1 hr]
    exact held.colour.lt

/-- **When a program can be assembled.**  There is source exactly if the names of the attributes and
uniforms may be declared and are different, no varying is below the position or below another varying,
and no attribute is below the colour without a varying between them.  Otherwise the failure is about a
name that the caller chose, and if there is nothing wrong with those, about a stage; nothing is ever
unbound, and the names of varyings and locals never fail. -/
theorem assembles_iff (reachable : s.Reachable) (given : program ∈ s.programs) (options : Options) :
    let p := s.workspace.pool program.pool
    let roots := [program.position, program.colour]
    ((∃ pair, program.assemble s.workspace options = .ok pair) ↔
      p.Nameable roots ∧ p.VaryingsApart program.position program.colour ∧
        p.AttributesApart program.colour) ∧
    ∀ f, program.assemble s.workspace options = .error f →
      (¬p.Nameable roots → (f.family = .validation ∨ f.family = .nameConflict) ∧
        (∃ id name, p.Uses roots id ∧ p.callerName? id = some name ∧ f.Blames name) ∧
        Binder.withReserved.bindAll (p.inputs roots).callerNames = .error f) ∧
      (p.Nameable roots → f.family = .stageViolation) ∧ f.family ≠ .unboundReference := by
  intro p roots
  have wf : p.WellFormed := reachable.valid.wellFormed program.pool
  have present : ∀ r ∈ roots, r < p.size := present_of_reachable reachable given
  have nameable : p.Nameable roots ↔ ∃ b, (p.inputs roots).bind = .ok b :=
    Pool.exists_bind_inputs_iff.symm
  show ((∃ pair, p.assemble program.position program.colour options = .ok pair) ↔ _) ∧
    ∀ f, p.assemble program.position program.colour options = .error f → _
  have noSource : ∀ g, ¬∃ pair, (.error g : Except Failure ShaderPair) = .ok pair := by
    rintro g ⟨pair, h⟩
    cases h
  have attributes : p.strayAttribute? program.position program.colour = none ↔
      p.AttributesApart program.colour := Pool.strayAttribute?_eq_none_iff
  rw [nameable, ← Pool.strayVarying?_eq_none_iff, ← attributes]
  rcases p.assemble_cases wf present options with ⟨g, refused, run⟩ | ⟨names, bound, rest⟩
  · -- a name is refused
    have unnamed : ¬∃ b, (p.inputs roots).bind = .ok b := by
      rintro ⟨b, bound⟩
      rw [refused] at bound
      cases bound
    obtain ⟨first, id, name, used, hn, blamed⟩ := Pool.bind_inputs_error refused
    rw [run]
    refine ⟨⟨fun h => absurd h (noSource _), fun h => absurd h.1 unnamed⟩, ?_⟩
    rintro f ⟨⟩
    refine ⟨fun _ => ⟨blamed.family, ⟨id, name, used, hn, blamed⟩, first⟩, fun h => absurd h unnamed, ?_⟩
    rcases blamed.family with family | family <;> rw [family] <;> decide
  · have named : ∃ b, (p.inputs roots).bind = .ok b := ⟨names, bound⟩
    rcases rest with ⟨entry, text, stray, -, run⟩ | ⟨noVarying, rest⟩
    · -- the vertex stage would read a varying
      rw [run]
      refine ⟨⟨fun h => absurd h (noSource _), fun h => ?_⟩, ?_⟩
      · rw [stray] at h
        exact absurd h.2.1 (by simp)
      · rintro f ⟨⟩
        exact ⟨fun h => absurd named h, fun _ => rfl, show Family.stageViolation ≠ _ by decide⟩
    rcases rest with ⟨entry, text, stray, -, run⟩ | ⟨noAttribute, varyings, pair, -, run⟩
    · -- the fragment stage would read an attribute
      rw [run]
      refine ⟨⟨fun h => absurd h (noSource _), fun h => ?_⟩, ?_⟩
      · rw [stray] at h
        exact absurd h.2.2 (by simp)
      · rintro f ⟨⟩
        exact ⟨fun h => absurd named h, fun _ => rfl, show Family.stageViolation ≠ _ by decide⟩
    · rw [run]
      refine ⟨⟨fun _ => ⟨named, noVarying, noAttribute⟩, fun _ => ⟨pair, rfl⟩⟩, ?_⟩
      rintro f ⟨⟩

theorem sample_assembles :
    ∃ pair, assemble ⟨0, 0, 3⟩ (Session.sample .empty []).workspace .standard = .ok pair := by
  have done : (assemble ⟨0, 0, 3⟩ (Session.sample .empty []).workspace .standard).isOk = true := by
    decide +kernel
  cases run : assemble ⟨0, 0, 3⟩ (Session.sample .empty []).workspace .standard with
  | ok pair => exact ⟨pair, rfl⟩
  | error f =>
    rw [run] at done
    cases done

/-- The program of the example session can be assembled, so all conditions hold of it. -/
theorem sample_assembles_apart :
    (∃ pair, assemble ⟨0, 0, 3⟩ (Session.sample .empty []).workspace .standard = .ok pair) ∧
      (Pool.sample .empty).Nameable [0, 3] ∧ (Pool.sample .empty).VaryingsApart 0 3 ∧
      (Pool.sample .empty).AttributesApart 3 :=
  ⟨sample_assembles,
    (assembles_iff Session.reachable_sample_empty List.mem_cons_self .standard).1.1 sample_assembles⟩

end Program

end ShaderDag
