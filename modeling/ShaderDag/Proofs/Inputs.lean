import ShaderDag.Glsl.Assembly
import ShaderDag.Proofs.Binder
import ShaderDag.Proofs.Pool

/-!
# The inputs of a program and their names

* `Pool.Uses` — the nodes that some roots reach, through varyings too;
* `Pool.InStage` — the nodes that a stage with some roots computes or reads: paths end at inputs;
* `Pool.Nameable` — the names that the caller chose may all be declared, and no two are equal;
* `Pool.exists_bind_inputs_iff` — the inputs get their names exactly if these are nameable, so names of
  varyings never fail;
* `Pool.mem_stageInputs` — the inputs that a stage reads.
-/

namespace ShaderDag

namespace Pool

variable {p : Pool} {roots : List Nat} {a b id : Nat} {name : String}

/-! ### Input nodes -/

theorem attributeName?_eq_some_iff :
    p.attributeName? id = some name ↔ p.node? id = some (.attribute name) := by
  unfold attributeName?
  split <;> simp_all

theorem uniformName?_eq_some_iff :
    p.uniformName? id = some name ↔ p.node? id = some (.uniform name) := by
  unfold uniformName?
  split <;> simp_all

theorem varyingInner?_eq_some_iff {inner : Nat} :
    p.varyingInner? id = some inner ↔ ∃ i : Fin id, i.val = inner ∧ p.node? id = some (.varying i) := by
  unfold varyingInner?
  split <;> simp_all

/-- The name that the caller chose for a node. -/
def callerName? (p : Pool) (id : Nat) : Option String := (p.attributeName? id).or (p.uniformName? id)

/-- The node is a varying. -/
def IsVarying (p : Pool) (id : Nat) : Prop := ∃ inner, p.varyingInner? id = some inner

theorem callerName?_eq_some_iff : p.callerName? id = some name ↔
    p.attributeName? id = some name ∨ p.uniformName? id = some name := by
  rw [callerName?, Option.or_eq_some_iff]
  constructor
  · rintro (h | ⟨-, h⟩)
    · exact .inl h
    · exact .inr h
  · rintro (h | h)
    · exact .inl h
    · refine .inr ⟨?_, h⟩
      unfold attributeName?
      rw [uniformName?_eq_some_iff.1 h]

/-- An input has a name from the caller, or it is a varying. -/
theorem isInput_iff :
    p.isInput id = true ↔ (∃ name, p.callerName? id = some name) ∨ p.IsVarying id := by
  simp only [callerName?_eq_some_iff, attributeName?_eq_some_iff, uniformName?_eq_some_iff, IsVarying,
    varyingInner?_eq_some_iff, isInput]
  cases p.node? id with
  | none => simp
  | some n => cases n <;> simp [Node.isInput]

theorem IsVarying.callerName?_eq_none (h : p.IsVarying id) : p.callerName? id = none := by
  obtain ⟨inner, h⟩ := h
  obtain ⟨i, -, hn⟩ := varyingInner?_eq_some_iff.1 h
  simp [callerName?, attributeName?, uniformName?, hn]

theorem IsVarying.isInput (h : p.IsVarying id) : p.isInput id = true := isInput_iff.2 (.inr h)

/-- An input with a child is a varying, and the child is what it interpolates. -/
theorem Child.varyingInner? (h : p.Child a b) (input : p.isInput a = true) :
    p.varyingInner? a = some b := by
  obtain ⟨n, hn, mem⟩ := h.exists_node
  rw [Node.children_map] at mem
  rw [varyingInner?_eq_some_iff]
  rw [Pool.isInput, hn, Option.any_some] at input
  match n, hn, mem, input with
  | .varying i, hn, mem, _ => exact ⟨i, by simpa [Node.children, eq_comm] using mem, hn⟩

theorem child_of_varyingInner? {inner : Nat} (h : p.varyingInner? id = some inner) :
    p.Child id inner := by
  obtain ⟨i, rfl, hn⟩ := varyingInner?_eq_some_iff.1 h
  rw [Child, childList_of_node hn]
  simp [Node.map, Node.children]

/-! ### Paths that end at inputs -/

/-- The roots reach the node. -/
def Uses (p : Pool) (roots : List Nat) (id : Nat) : Prop := ∃ r ∈ roots, p.Reaches r id

/-- A stage with these roots computes or reads the node; what a varying interpolates is not looked at. -/
def InStage (p : Pool) (roots : List Nat) (id : Nat) : Prop :=
  ∃ r ∈ roots, p.ReachesBy (fun a => p.isInput a = false) r id

theorem Uses.child (h : p.Uses roots a) (step : p.Child a b) : p.Uses roots b := by
  obtain ⟨r, hr, path⟩ := h
  exact ⟨r, hr, path.tail step⟩

theorem inStage_root (h : id ∈ roots) : p.InStage roots id := ⟨id, h, .refl⟩

theorem InStage.child (h : p.InStage roots a) (inner : p.isInput a = false) (step : p.Child a b) :
    p.InStage roots b := by
  obtain ⟨r, hr, path⟩ := h
  exact ⟨r, hr, path.tail ⟨inner, step⟩⟩

/-- A stage stays within what is used, if its roots are. -/
theorem InStage.uses {all : List Nat} (h : p.InStage roots id) (used : ∀ r ∈ roots, p.Uses all r) :
    p.Uses all id := by
  obtain ⟨r, hr, path⟩ := h
  obtain ⟨top, htop, before⟩ := used r hr
  exact ⟨top, htop, before.trans path.reaches⟩

/-- Until its end a path without varyings passes no input. -/
theorem reachesBy_inner_iff :
    p.ReachesBy (fun c => p.isInput c = false) a b ↔ p.ReachesBy (fun c => ¬p.IsVarying c) a b := by
  constructor
  · refine Relation.ReflTransGen.mono (fun c d step => ⟨fun varying => ?_, step.2⟩) _ _
    have inner : p.isInput c = false := step.1
    rw [varying.isInput] at inner
    exact absurd inner (by simp)
  · refine Relation.ReflTransGen.mono (fun c d step => ⟨?_, step.2⟩) _ _
    show p.isInput c = false
    rw [Bool.eq_false_iff]
    exact fun input => step.1 ⟨d, step.2.varyingInner? input⟩

/-- On a path to a varying there is a first one. -/
theorem exists_first_varying (path : p.Reaches a b) (varying : p.IsVarying b) :
    ∃ v, p.IsVarying v ∧ p.Reaches a v ∧ p.ReachesBy (fun c => p.isInput c = false) a v := by
  induction path using Relation.ReflTransGen.head_induction_on with
  | refl => exact ⟨b, varying, .refl, .refl⟩
  | @head a c step _ ih =>
    cases input : p.isInput a with
    | true => exact ⟨a, ⟨c, step.varyingInner? input⟩, .refl, .refl⟩
    | false =>
      obtain ⟨v, hv, path, inner⟩ := ih
      exact ⟨v, hv, .head step path, .head ⟨input, step⟩ inner⟩

/-! ### The table of inputs -/

theorem mem_attributes : (id, name) ∈ (p.inputs roots).attributes ↔
    p.Uses roots id ∧ p.attributeName? id = some name := by
  rw [Uses, ← mem_reachable]
  exact mem_filterMap_tagged

theorem mem_uniforms : (id, name) ∈ (p.inputs roots).uniforms ↔
    p.Uses roots id ∧ p.uniformName? id = some name := by
  rw [Uses, ← mem_reachable]
  exact mem_filterMap_tagged

theorem mem_varyings {inner : Nat} : (id, inner) ∈ (p.inputs roots).varyings ↔
    p.Uses roots id ∧ p.varyingInner? id = some inner := by
  rw [Uses, ← mem_reachable]
  exact mem_filterMap_tagged

theorem mem_callerNames : (id, name) ∈ (p.inputs roots).callerNames ↔
    p.Uses roots id ∧ p.callerName? id = some name := by
  rw [Inputs.callerNames, List.mem_append, mem_attributes, mem_uniforms, callerName?_eq_some_iff,
    and_or_left]

theorem keys_varyingNames (i : Inputs) : i.varyingNames.map (·.1) = i.varyings.map (·.1) := by
  have indexed := List.zipIdx_map_fst 0 i.varyings
  conv_rhs => rw [← indexed]
  simp only [Inputs.varyingNames, List.map_map, Function.comp_def]

theorem mem_varyingNames_keys : id ∈ (p.inputs roots).varyingNames.map (·.1) ↔
    p.Uses roots id ∧ p.IsVarying id := by
  rw [keys_varyingNames, List.mem_map]
  constructor
  · rintro ⟨⟨id, inner⟩, mem, rfl⟩
    obtain ⟨used, hi⟩ := mem_varyings.1 mem
    exact ⟨used, inner, hi⟩
  · rintro ⟨used, inner, hi⟩
    exact ⟨(id, inner), mem_varyings.2 ⟨used, hi⟩, rfl⟩

/-- No node is listed twice among the inputs. -/
theorem nodup_input_keys (p : Pool) (roots : List Nat) :
    (((p.inputs roots).callerNames ++ (p.inputs roots).varyingNames).map (·.1)).Nodup := by
  have part : ∀ {β : Type} (f : Nat → Option β),
      (((p.reachable roots).filterMap fun id => (f id).map (id, ·)).map (·.1)).Nodup := by
    intro β f
    rw [keys_filterMap_tagged]
    exact (nodup_reachable p roots).filter _
  rw [List.map_append, keys_varyingNames, List.nodup_append, Inputs.callerNames, List.map_append,
    List.nodup_append]
  refine ⟨⟨part p.attributeName?, part p.uniformName?, ?_⟩, part p.varyingInner?, ?_⟩
  · rintro a ha _ hb rfl
    obtain ⟨⟨x, n⟩, hx, rfl⟩ := List.mem_map.1 ha
    obtain ⟨⟨y, m⟩, hy, same⟩ := List.mem_map.1 hb
    obtain rfl : y = x := same
    have left := attributeName?_eq_some_iff.1 (mem_attributes.1 hx).2
    have right := uniformName?_eq_some_iff.1 (mem_uniforms.1 hy).2
    rw [left] at right
    exact absurd right (by simp)
  · rintro a ha _ hb rfl
    rw [← List.map_append] at ha
    obtain ⟨⟨x, n⟩, hx, rfl⟩ := List.mem_map.1 ha
    obtain ⟨⟨y, m⟩, hy, same⟩ := List.mem_map.1 hb
    obtain rfl : y = x := same
    have none := IsVarying.callerName?_eq_none ⟨m, (mem_varyings.1 hy).2⟩
    rw [(mem_callerNames.1 hx).2] at none
    exact absurd none (by simp)

/-! ### Names of inputs -/

/-- The names that the caller chose may be declared, and no two inputs have the same. -/
structure Nameable (p : Pool) (roots : List Nat) : Prop where
  declarable : ∀ id name, p.Uses roots id → p.callerName? id = some name →
    checkIdentifier name = .ok ()
  unreserved : ∀ id name, p.Uses roots id → p.callerName? id = some name → name ∉ reservedNames
  distinct : ∀ a b name, p.Uses roots a → p.Uses roots b → p.callerName? a = some name →
    p.callerName? b = some name → a = b

theorem nodup_callerNames_keys (p : Pool) (roots : List Nat) :
    ((p.inputs roots).callerNames.map (·.1)).Nodup := by
  have all := nodup_input_keys p roots
  rw [List.map_append] at all
  exact (List.nodup_append.1 all).1

theorem bindable_callerNames :
    Binder.withReserved.Bindable (p.inputs roots).callerNames ↔ p.Nameable roots := by
  have keys := nodup_callerNames_keys p roots
  have names := List.nodup_map_iff_inj_on (f := Prod.snd) keys.of_map
  constructor
  · intro h
    refine ⟨fun id name used hn => h.declarable _ (mem_callerNames.2 ⟨used, hn⟩),
      fun id name used hn => h.unused _ (mem_callerNames.2 ⟨used, hn⟩), ?_⟩
    intro a b name ua ub ha hb
    have same := names.1 h.names_nodup _ (mem_callerNames.2 ⟨ua, ha⟩) _
      (mem_callerNames.2 ⟨ub, hb⟩) rfl
    exact congrArg Prod.fst same
  · intro h
    refine ⟨?_, ?_, fun _ _ => rfl, names.2 ?_, keys⟩
    · rintro ⟨id, name⟩ mem
      obtain ⟨used, hn⟩ := mem_callerNames.1 mem
      exact h.declarable id name used hn
    · rintro ⟨id, name⟩ mem
      obtain ⟨used, hn⟩ := mem_callerNames.1 mem
      exact h.unreserved id name used hn
    · rintro ⟨a, n⟩ ha ⟨b, m⟩ hb same
      obtain rfl : n = m := same
      obtain ⟨ua, ha⟩ := mem_callerNames.1 ha
      obtain ⟨ub, hb⟩ := mem_callerNames.1 hb
      rw [h.distinct a b n ua ub ha hb]

end Pool

/-! ### Names of varyings -/

namespace Inputs

theorem names_varyingNames (i : Inputs) : ∃ underscores,
    i.varyingNames.map (·.2) =
      (List.range' 0 i.varyings.length).map (varyingStem underscores ++ toString ·) ∧
    ∀ name ∈ reservedNames ++ i.callerNames.map (·.2),
      startsWith (varyingStem underscores) name = false := by
  obtain ⟨underscores, lead, clear⟩ := varyingLead_clear (i.callerNames.map (·.2))
  refine ⟨underscores, ?_, clear⟩
  rw [← List.zipIdx_map_snd 0 i.varyings]
  simp only [varyingNames, lead, List.map_map, Function.comp_def]

/-- Names of varyings can always be given: they are numbered, and no other name starts like them. -/
theorem bindable_varyingNames {i : Inputs} {b : Binder}
    (used : ∀ name ∈ b.used, name ∈ reservedNames ++ i.callerNames.map (·.2))
    (unbound : ∀ entry ∈ i.varyingNames, b.nameOf? entry.1 = none)
    (ids : (i.varyingNames.map (·.1)).Nodup) : b.Bindable i.varyingNames := by
  obtain ⟨underscores, names, clear⟩ := i.names_varyingNames
  have numbered : ∀ entry ∈ i.varyingNames, ∃ n : Nat, entry.2 = varyingStem underscores ++ toString n := by
    intro entry mem
    have listed : entry.2 ∈ i.varyingNames.map (·.2) := List.mem_map_of_mem mem
    rw [names] at listed
    obtain ⟨n, -, hn⟩ := List.mem_map.1 listed
    exact ⟨n, hn.symm⟩
  refine ⟨?_, ?_, unbound, ?_, ids⟩
  · intro entry mem
    obtain ⟨n, hn⟩ := numbered entry mem
    rw [hn]
    exact checkIdentifier_varying underscores n
  · intro entry mem taken
    obtain ⟨n, hn⟩ := numbered entry mem
    have := clear _ (used _ taken)
    rw [hn, startsWith_append] at this
    exact absurd this (by simp)
  · rw [names]
    exact List.Nodup.map (fun m n h => append_toString_injective _ h) List.nodup_range'

/-- The inputs are different nodes. -/
def NodesApart (i : Inputs) : Prop := ((i.callerNames ++ i.varyingNames).map (·.1)).Nodup

/-- If the names that the caller chose are accepted, then no name of a varying is refused. -/
theorem bind_eq (i : Inputs) (apart : i.NodesApart) :
    i.bind = (Binder.withReserved.bindAll i.callerNames).map (·.withAll i.varyingNames) := by
  have run : i.bind = Binder.withReserved.bindAll (i.callerNames ++ i.varyingNames) := rfl
  rw [run, Binder.bindAll_append]
  cases first : Binder.withReserved.bindAll i.callerNames with
  | error f => rfl
  | ok b =>
    obtain ⟨-, rfl⟩ := Binder.bindAll_eq_ok_iff.1 first
    rw [NodesApart, List.map_append, List.nodup_append] at apart
    obtain ⟨-, ids, apart⟩ := apart
    refine Binder.bindAll_eq_ok_iff.2 ⟨bindable_varyingNames ?_ ?_ ids, rfl⟩
    · intro name used
      rcases List.mem_append.1 used with used | used
      · exact List.mem_append_right _ (List.mem_reverse.1 used)
      · exact List.mem_append_left _ used
    · intro entry mem
      rw [Binder.nameOf?_eq_none_iff]
      intro bound
      have caller : entry.1 ∈ i.callerNames.map (·.1) := by
        simpa [Binder.withAll, Binder.withReserved] using bound
      exact apart _ caller _ (List.mem_map_of_mem mem) rfl

end Inputs

/-! ### The binder of the inputs -/

namespace Pool

variable {p : Pool} {roots : List Nat} {id : Nat} {name : String} {names : Binder}

/-- Only the names of attributes and uniforms can fail; those of varyings are always given. -/
theorem bind_inputs (p : Pool) (roots : List Nat) :
    (p.inputs roots).bind =
      (Binder.withReserved.bindAll (p.inputs roots).callerNames).map
        (·.withAll (p.inputs roots).varyingNames) :=
  (p.inputs roots).bind_eq (nodup_input_keys p roots)

theorem exists_bind_inputs_iff : (∃ b, (p.inputs roots).bind = .ok b) ↔ p.Nameable roots := by
  rw [bind_inputs, ← bindable_callerNames]
  constructor
  · rintro ⟨b, h⟩
    cases first : Binder.withReserved.bindAll (p.inputs roots).callerNames with
    | error f =>
      rw [first] at h
      cases h
    | ok b₁ => exact (Binder.bindAll_eq_ok_iff.1 first).1
  · intro h
    rw [Binder.bindAll_eq_ok_iff.2 ⟨h, rfl⟩]
    exact ⟨_, rfl⟩

/-- If the inputs get no names, then this is about a name that the caller chose. -/
theorem bind_inputs_error {f : Failure} (h : (p.inputs roots).bind = .error f) :
    Binder.withReserved.bindAll (p.inputs roots).callerNames = .error f ∧
      ∃ id name, p.Uses roots id ∧ p.callerName? id = some name ∧ f.Blames name := by
  rw [bind_inputs] at h
  cases first : Binder.withReserved.bindAll (p.inputs roots).callerNames with
  | ok b =>
    rw [first] at h
    cases h
  | error g =>
    rw [first] at h
    cases h
    obtain ⟨⟨id, name⟩, mem, blamed⟩ :=
      Binder.bindAll_error (fun _ _ => rfl) (nodup_callerNames_keys p roots) first
    obtain ⟨used, hn⟩ := mem_callerNames.1 mem
    exact ⟨rfl, id, name, used, hn, blamed⟩

/-- A sound binder in which exactly the inputs have names. -/
structure Named (p : Pool) (roots : List Nat) (names : Binder) : Prop where
  sound : names.Sound
  nameOf?_iff : ∀ id name, names.nameOf? id = some name ↔
    (id, name) ∈ (p.inputs roots).callerNames ++ (p.inputs roots).varyingNames

theorem named_of_bind (h : (p.inputs roots).bind = .ok names) : p.Named roots names := by
  have run : Binder.withReserved.bindAll
      ((p.inputs roots).callerNames ++ (p.inputs roots).varyingNames) = .ok names := h
  have sound := Binder.sound_withReserved.bindAll run
  refine ⟨sound, fun id name => ?_⟩
  obtain ⟨-, rfl⟩ := Binder.bindAll_eq_ok_iff.1 run
  rw [sound.nameOf?_eq_some_iff]
  simp [Binder.withAll, Binder.withReserved, or_comm]

namespace Named

theorem callerName (named : p.Named roots names) (used : p.Uses roots id)
    (h : p.callerName? id = some name) : names.nameOf? id = some name :=
  (named.nameOf?_iff id name).2 (List.mem_append_left _ (mem_callerNames.2 ⟨used, h⟩))

/-- The nodes with names are the inputs. -/
theorem exists_name_iff (named : p.Named roots names) :
    (∃ name, names.nameOf? id = some name) ↔ p.Uses roots id ∧ p.isInput id = true := by
  simp only [named.nameOf?_iff, List.mem_append, exists_or, mem_callerNames, isInput_iff, and_or_left,
    exists_and_left]
  rw [← mem_varyingNames_keys, List.mem_map]
  simp only [Prod.exists]
  grind

end Named

/-! ### The inputs that a stage reads -/

theorem askStage_gate (p : Pool) :
    Gate p.askStage (fun id => !p.isInput id) fun s => s.1.filter fun id => !p.isInput id where
  opens id s := by
    by_cases hs : id ∈ s.1 <;> cases input : p.isInput id <;> simp [askStage, hs, input]
  records id s c := by
    by_cases hs : id ∈ s.1 <;> cases input : p.isInput id <;> simp [askStage, hs, input]
    all_goals grind

theorem askStage_recalls (p : Pool) (id : Nat) (s : List Nat × List Nat) (c : Nat) :
    c ∈ (p.askStage id s).2.1 ↔ c ∈ s.1 ∨ c = id := by
  by_cases hs : id ∈ s.1 <;> cases input : p.isInput id <;> simp [askStage, hs, input]
  all_goals grind

/-- The collected nodes are the inputs among those asked about. -/
theorem askStage_collects (p : Pool) (id : Nat) (s : List Nat × List Nat)
    (h : ∀ c, c ∈ s.2 ↔ c ∈ s.1 ∧ p.isInput c = true) :
    ∀ c, c ∈ (p.askStage id s).2.2 ↔ c ∈ (p.askStage id s).2.1 ∧ p.isInput c = true := by
  intro c
  have := h c
  by_cases hs : id ∈ s.1 <;> cases input : p.isInput id <;> simp [askStage, hs, input]
  all_goals grind

/-- **The inputs of a stage.**  A stage reads the inputs at the ends of its paths. -/
theorem mem_stageInputs {c : Nat} :
    c ∈ p.stageInputs roots ↔ p.InStage roots c ∧ p.isInput c = true := by
  obtain ⟨ys, s, run⟩ : ∃ ys s, p.walkAll p.askStage roots ([], []) = (ys, s) := ⟨_, _, rfl⟩
  have visits := visits_iff.2 run
  have collected := visits.invariant p.askStage_collects (by simp) c
  have asked := visits.mem_asked Prod.fst p.askStage_recalls c
  have entered := fun n => visits.mem_iff p.askStage_gate rfl n
  have same : p.stageInputs roots = s.2 := by rw [stageInputs, run]
  rw [same, collected, asked]
  refine and_congr_left fun _ => ?_
  simp only [entered, Bool.not_eq_true']
  constructor
  · rintro (old | root | ⟨n, ⟨hn, r, hr, path⟩, step⟩)
    · exact absurd old List.not_mem_nil
    · exact inStage_root root
    · exact ⟨r, hr, path.tail ⟨hn, step⟩⟩
  · rintro ⟨r, hr, path⟩
    rcases Relation.ReflTransGen.cases_tail path with rfl | ⟨n, before, hn, step⟩
    · exact .inr (.inl hr)
    · exact .inr (.inr ⟨n, ⟨hn, r, hr, before⟩, step⟩)

end Pool

end ShaderDag
