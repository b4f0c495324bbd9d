import ShaderDag.Command.Basic
import ShaderDag.Proofs.Frame
import ShaderDag.Proofs.Table

/-!
# Building on tables

The constructions are the same on tables as on the pools that the tables keep: they give the same handles
and the same failures, and the tables keep the pools that building on pools leads to.  So what is known of
pools is known of tables, and in any run from empty tables both ways of every table fit together.

* `Tables.WellFormed` — well-formed tables, with their pools in `Tables.view`;
* `Mirrors` — an action on tables does what an action on pools does, with the rules for composed actions;
* `Build.mirrors_compile`, `Build.mirrors_document`, … — the constructions, text and documents;
* `Tables.Step`, `Tables.Reachable` — one operation on tables, and any number of them from empty tables;
* `Tables.Reachable.wellFormed` — the tables stay well-formed;
* `sourceOf_eq_ok_iff` — what the command line prints is what building on pools gives.
-/

namespace ShaderDag

/-! ### Rows of tables -/

namespace Tables

variable {s : Tables}

/-- Every table is well-formed. -/
def WellFormed (s : Tables) : Prop := ∀ i, (s.table i).WellFormed

@[simp] theorem pool_view (s : Tables) (i : Nat) : s.view.pool i = (s.table i).view := by
  simp only [Workspace.pool, view, table, Array.getD_eq_getD_getElem?, Array.getElem?_map]
  cases s.all[i]? with
  | none => exact NodeTable.view_empty.symm
  | some t => rfl

@[simp] theorem view_setTable (s : Tables) (i : Nat) (t : NodeTable) :
    view (s.setTable i t) = s.view.setPool i t.view := by
  simp only [view, setTable, Workspace.setPool, Array.map_setIfInBounds]

@[simp] theorem view_empty (count : Nat) : view (empty count) = .empty count := by
  simp only [view, empty, Workspace.empty, Array.map_replicate, NodeTable.view_empty]

theorem wellFormed_empty (count : Nat) : (empty count).WellFormed := by
  intro i
  have vacant : (empty count).table i = .empty := by
    by_cases here : i < count <;> simp [table, empty, Array.getD, here]
  rw [vacant]
  exact NodeTable.wellFormed_empty

theorem WellFormed.setTable {t : NodeTable} (wf : s.WellFormed) (wfTable : t.WellFormed) (i : Nat) :
    (s.setTable i t).WellFormed := by
  intro j
  simp only [table, Tables.setTable, Array.getD_eq_getD_getElem?, Array.getElem?_setIfInBounds]
  split
  · split
    · exact wfTable
    · exact NodeTable.wellFormed_empty
  · rw [← Array.getD_eq_getD_getElem?]
    exact wf j

/-- A result of one table, put back into the row. -/
theorem WellFormed.putBack (wf : s.WellFormed) (i : Nat) {result : Nat × NodeTable} {answer : Nat × Pool}
    (agrees : NodeTable.Agrees result answer) :
    (s.setTable i result.2).WellFormed ∧
      (answer.1, s.view.setPool i answer.2) = (result.1, view (s.setTable i result.2)) := by
  obtain ⟨wfTable, same⟩ := agrees
  exact ⟨wf.setTable wfTable i, by rw [same, view_setTable]⟩

/-- Adding a node to a table of the row is adding it to the pool of the table. -/
theorem WellFormed.intern (wf : s.WellFormed) (pool : Nat) (kind : Kind) (node : Node Nat) :
    (NodeStore.intern s pool kind node).2.WellFormed ∧
      NodeStore.intern s.view pool kind node =
        ((NodeStore.intern s pool kind node).1, view (NodeStore.intern s pool kind node).2) := by
  have agrees := (wf pool).make kind node
  rw [← pool_view] at agrees
  exact wf.putBack pool agrees

theorem WellFormed.adopt (wf : s.WellFormed) (pool source id : Nat) :
    (NodeStore.adopt s pool source id).2.WellFormed ∧
      NodeStore.adopt s.view pool source id =
        ((NodeStore.adopt s pool source id).1, view (NodeStore.adopt s pool source id).2) := by
  have agrees := (wf pool).adopt (s.table source) id
  rw [← pool_view, ← pool_view] at agrees
  exact wf.putBack pool agrees

end Tables

/-! ### Actions on tables -/

section Mirrors

variable {α β : Type} {onTables : BuildOn Tables α} {onPools : Build α}

/-- An action on tables and one on the pools that they keep have one result, and leave tables and their
pools. -/
def Mirrors (onTables : BuildOn Tables α) (onPools : Build α) : Prop :=
  ∀ s : Tables, s.WellFormed → match onTables s with
    | .ok a s' => s'.WellFormed ∧ onPools s.view = .ok a s'.view
    | .error f s' => s'.WellFormed ∧ onPools s.view = .error f s'.view

theorem Mirrors.after (mirrors : Mirrors onTables onPools) {s : Tables} (wf : s.WellFormed) :
    (Build.after onTables s).WellFormed ∧ (Build.after onTables s).view = Build.after onPools s.view := by
  have result := mirrors s wf
  unfold Build.after
  cases run : onTables s with
  | ok a s' =>
    rw [run] at result
    exact ⟨result.1, by rw [result.2]⟩
  | error f s' =>
    rw [run] at result
    exact ⟨result.1, by rw [result.2]⟩

theorem mirrors_pure (a : α) : Mirrors (pure a) (pure a) := fun _ wf => ⟨wf, rfl⟩

theorem mirrors_ofExcept (result : Except Failure α) :
    Mirrors (Build.ofExcept result) (Build.ofExcept result) := by
  cases result with
  | ok a => exact mirrors_pure a
  | error f => exact fun _ wf => ⟨wf, rfl⟩

theorem Mirrors.bind {next : α → BuildOn Tables β} {next' : α → Build β} (first : Mirrors onTables onPools)
    (rest : ∀ a, Mirrors (next a) (next' a)) : Mirrors (onTables >>= next) (onPools >>= next') := by
  intro s wf
  have result := first s wf
  cases run : onTables s with
  | ok a s₁ =>
    rw [run] at result
    rw [bind_ok run, bind_ok result.2]
    exact rest a s₁ result.1
  | error f s₁ =>
    rw [run] at result
    rw [bind_error run, bind_error result.2]
    exact ⟨result.1, rfl⟩

theorem Mirrors.adaptExcept (mirrors : Mirrors onTables onPools) (change : Failure → Failure) :
    Mirrors (EStateM.adaptExcept change onTables) (EStateM.adaptExcept change onPools) := by
  intro s wf
  have result := mirrors s wf
  simp only [EStateM.adaptExcept]
  cases run : onTables s with
  | ok a s' =>
    rw [run] at result
    exact ⟨result.1, by rw [result.2]⟩
  | error f s' =>
    rw [run] at result
    exact ⟨result.1, by rw [result.2]⟩

end Mirrors

namespace Build

variable (pool : Nat)

theorem mirrors_fail {α : Type} (cause : Cause) : Mirrors (fail cause : BuildOn Tables α) (fail cause) :=
  fun _ wf => ⟨wf, rfl⟩

/-- An answer of the tables that is the answer of their pools. -/
theorem mirrors_modifyGet {α : Type} {onTables : Tables → α × Tables} {onPools : Workspace → α × Workspace}
    (agree : ∀ s : Tables, s.WellFormed →
      (onTables s).2.WellFormed ∧ onPools s.view = ((onTables s).1, (onTables s).2.view)) :
    Mirrors (modifyGet onTables) (modifyGet onPools) := by
  intro s wf
  obtain ⟨wf', same⟩ := agree s wf
  exact ⟨wf', by rw [modifyGet_ok, same]⟩

theorem mirrors_intern (kind : Kind) (node : Node Nat) :
    Mirrors (intern pool kind node) (intern pool kind node) :=
  (mirrors_modifyGet fun _ wf => wf.intern pool kind node).bind
    fun id => mirrors_pure (Handle.mk pool id kind)

theorem mirrors_adopt (h : Handle) : Mirrors (adopt pool h) (adopt pool h) := by
  unfold adopt
  split
  · exact mirrors_pure h.id
  · exact mirrors_modifyGet fun _ wf => wf.adopt pool h.pool h.id

theorem mirrors_adoptAll (args : List Handle) :
    Mirrors (args.mapM (adopt pool)) (args.mapM (adopt pool)) := by
  induction args with
  | nil => exact mirrors_pure []
  | cons h args ih =>
    rw [List.mapM_cons, List.mapM_cons]
    refine (mirrors_adopt pool h).bind fun id => ?_
    exact ih.bind fun ids => mirrors_pure (id :: ids)

/-! ### Constructions -/

theorem mirrors_addAttribute (name : String) (kind : Kind) :
    Mirrors (addAttribute pool name kind) (addAttribute pool name kind) := by
  unfold addAttribute
  cases kind.canBeAttribute with
  | true => exact mirrors_intern pool kind (.attribute name)
  | false => exact mirrors_fail (.attributeKind name kind)

theorem mirrors_binary (op : Operator) (lhs rhs : Handle) :
    Mirrors (binary op lhs rhs) (binary op lhs rhs) := by
  unfold binary
  cases op.result? lhs.kind rhs.kind with
  | some kind =>
    exact (mirrors_adopt lhs.pool rhs).bind fun right =>
      mirrors_intern lhs.pool kind (.operator op lhs.id right)
  | none => exact mirrors_fail (.undefinedOperator op lhs.kind rhs.kind)

theorem mirrors_varying (inner : Handle) : Mirrors (varying inner) (varying inner) := by
  unfold varying
  cases inner.kind.canInterpolate with
  | true => exact mirrors_intern inner.pool inner.kind (.varying inner.id)
  | false => exact mirrors_fail (.notInterpolable inner.kind)

theorem mirrors_construct (kind : Kind) (args : List Handle) :
    Mirrors (construct pool kind args) (construct pool kind args) := by
  unfold construct
  dsimp only
  cases kind.canConstruct (args.map (·.kind)) with
  | true => exact (mirrors_adoptAll pool args).bind fun ids => mirrors_intern pool kind (.construct ids)
  | false => exact mirrors_fail (.noConstructor kind (args.map (·.kind)))

theorem mirrors_call (name : String) (args : List Handle) :
    Mirrors (call pool name args) (call pool name args) := by
  unfold call
  cases Builtin.ofName? name with
  | none => exact mirrors_fail (.unknownFunction name)
  | some function =>
    dsimp only
    cases function.result? (args.map (·.kind)) with
    | some kind => exact (mirrors_adoptAll pool args).bind fun ids =>
        mirrors_intern pool kind (.call function ids)
    | none => exact mirrors_fail (.noOverload function (args.map (·.kind)))

theorem mirrors_checked (r : Request) : Mirrors r.checked r.checked := by
  cases r with
  | addAttribute pool name kind => exact mirrors_addAttribute pool name kind
  | addUniform pool name kind => exact mirrors_intern pool kind (.uniform name)
  | addConstant pool value => exact mirrors_intern pool .float (.literal value)
  | binary op lhs rhs => exact mirrors_binary op lhs rhs
  | varying inner => exact mirrors_varying inner
  | construct pool kind args => exact mirrors_construct pool kind args
  | call pool name args => exact mirrors_call (Request.home pool args) name args

/-! ### Text and documents -/

theorem mirrors_negate (operand : Handle) : Mirrors (negate pool operand) (negate pool operand) := by
  unfold negate
  split
  · exact mirrors_fail (.undefinedNegation operand.kind)
  · exact (mirrors_intern pool .float (.literal .minusOne)).bind fun h => mirrors_binary .mul operand h

theorem mirrors_apply (callee : String) (args : List Handle) :
    Mirrors (apply pool callee args) (apply pool callee args) := by
  unfold apply
  by_cases marks : callee = "varying"
  · rw [if_pos marks, if_pos marks]
    match args with
    | [inner] => exact mirrors_varying inner
    | [] => exact mirrors_fail (.varyingArity 0)
    | first :: second :: more => exact mirrors_fail (.varyingArity _)
  · rw [if_neg marks, if_neg marks]
    cases Kind.ofName? callee with
    | some kind => exact mirrors_construct pool kind args
    | none => exact mirrors_call pool callee args

mutual

theorem mirrors_lower (scope : Scope) (e : Expression) :
    Mirrors (lower pool scope e) (lower pool scope e) := by
  match e with
  | .numeral value => exact mirrors_intern pool .float (.literal (value.constant false))
  | .name text offset =>
    rw [lower, lower]
    cases scope.get? text with
    | some h => exact (mirrors_adopt pool h).bind fun id => mirrors_pure (Handle.mk pool id h.kind)
    | none => exact (mirrors_fail (.unknownIdentifier text)).adaptExcept _
  | .negate operand offset =>
    by_cases number : ∃ value, operand = .numeral value
    · obtain ⟨value, rfl⟩ := number
      exact mirrors_intern pool .float (.literal (value.constant true))
    · have other : ∀ value, operand = .numeral value → False := fun value same => number ⟨value, same⟩
      rw [lower, lower]
      · exact (mirrors_lower scope operand).bind fun h => (mirrors_negate pool h).adaptExcept _
      · exact other
      · exact other
  | .binary op left right offset =>
    rw [lower, lower]
    refine (mirrors_lower scope left).bind fun l => ?_
    exact (mirrors_lower scope right).bind fun r => (mirrors_binary op l r).adaptExcept _
  | .call callee args offset =>
    rw [lower, lower]
    exact (mirrors_lowerAll scope args).bind fun hs => (mirrors_apply pool callee hs).adaptExcept _

theorem mirrors_lowerAll (scope : Scope) (es : List Expression) :
    Mirrors (lowerAll pool scope es) (lowerAll pool scope es) := by
  match es with
  | [] => exact mirrors_pure []
  | e :: es =>
    rw [lowerAll, lowerAll]
    refine (mirrors_lower scope e).bind fun h => ?_
    exact (mirrors_lowerAll scope es).bind fun hs => mirrors_pure (h :: hs)

end

theorem mirrors_compile (source : String) (scope : Scope) :
    Mirrors (compile pool source scope) (compile pool source scope) := by
  unfold compile
  cases parse source with
  | ok e => exact mirrors_lower pool scope e
  | error e => exact mirrors_fail (.malformedText e)

/-- One declaration of a document, followed by the rest. -/
theorem mirrors_declaration {scope : Scope} {name : String} {make : BuildOn Tables Handle}
    {make' : Build Handle} {next : Scope → BuildOn Tables Scope} {next' : Scope → Build Scope}
    (makes : Mirrors make make') (rest : ∀ scope', Mirrors (next scope') (next' scope')) :
    Mirrors
      (do
        ofExcept (checkIdentifier name)
        let h ← make
        let scope ← ofExcept (scope.define name h)
        next scope)
      (do
        ofExcept (checkIdentifier name)
        let h ← make'
        let scope ← ofExcept (scope.define name h)
        next' scope) :=
  (mirrors_ofExcept _).bind fun _ => makes.bind fun _ => (mirrors_ofExcept _).bind rest

theorem mirrors_buildAttributes (entries : List (String × Kind)) : ∀ scope,
    Mirrors (Document.buildAttributes pool scope entries) (Document.buildAttributes pool scope entries) := by
  induction entries with
  | nil => exact mirrors_pure
  | cons entry entries ih =>
    exact fun scope => mirrors_declaration ((mirrors_addAttribute pool entry.1 entry.2).adaptExcept _) ih

theorem mirrors_buildUniforms (entries : List (String × Kind)) : ∀ scope,
    Mirrors (Document.buildUniforms pool scope entries) (Document.buildUniforms pool scope entries) := by
  induction entries with
  | nil => exact mirrors_pure
  | cons entry entries ih =>
    exact fun scope => mirrors_declaration (mirrors_intern pool entry.2 (.uniform entry.1)) ih

theorem mirrors_buildDefinition (scope : Scope) (d : Definition) :
    Mirrors (Document.buildDefinition pool scope d) (Document.buildDefinition pool scope d) := by
  refine (mirrors_compile pool d.source scope).bind fun h => ?_
  cases d.varying with
  | true => exact mirrors_varying h
  | false => exact mirrors_pure h

theorem mirrors_buildDefinitions (definitions : List Definition) : ∀ scope,
    Mirrors (Document.buildDefinitions pool scope definitions)
      (Document.buildDefinitions pool scope definitions) := by
  induction definitions with
  | nil => exact mirrors_pure
  | cons d definitions ih =>
    exact fun scope => mirrors_declaration ((mirrors_buildDefinition pool scope d).adaptExcept _) ih

theorem mirrors_ofHandles (position colour : Handle) :
    Mirrors (Program.ofHandles position colour) (Program.ofHandles position colour) := by
  unfold Program.ofHandles
  split
  · exact mirrors_fail (.outputKind .position position.kind)
  · split
    · exact mirrors_fail (.outputKind .colour colour.kind)
    · exact (mirrors_adopt position.pool colour).bind fun id =>
        mirrors_pure (Program.mk position.pool position.id id)

/-- **A document is built on tables as on pools.** -/
theorem mirrors_document (doc : Document) : Mirrors (doc.build pool) (doc.build pool) := by
  have names : Mirrors (doc.buildScope pool) (doc.buildScope pool) :=
    (mirrors_buildAttributes pool _ _).bind fun scope => (mirrors_buildUniforms pool _ scope).bind
      (mirrors_buildDefinitions pool doc.definitions)
  refine names.bind fun scope => ?_
  refine ((mirrors_compile pool doc.position scope).adaptExcept _).bind fun position => ?_
  refine ((mirrors_compile pool doc.colour scope).adaptExcept _).bind fun colour => ?_
  exact mirrors_ofHandles position colour

end Build

/-! ### Runs -/

namespace Tables

variable {s s' : Tables}

/-- One operation on tables, which may fail. -/
inductive Step (s : Tables) : Tables → Prop where
  | checked (r : Request) : Step s (Build.after r.checked s)
  | call (pool : Nat) (name : String) (args : List Handle) :
      Step s (Build.after (Build.call pool name args) s)
  | compile (pool : Nat) (source : String) (scope : Scope) :
      Step s (Build.after (Build.compile pool source scope) s)
  | program (position colour : Handle) : Step s (Build.after (Program.ofHandles position colour) s)
  | document (pool : Nat) (doc : Document) : Step s (Build.after (doc.build pool) s)

/-- Tables that operations lead to from empty tables. -/
def Reachable (s : Tables) : Prop := ∃ count, Relation.ReflTransGen Step (empty count) s

/-- **One operation on tables is that operation on their pools**, and both ways of every table still fit
together. -/
theorem WellFormed.step (wf : s.WellFormed) (step : Step s s') :
    s'.WellFormed ∧ ∃ (α : Type) (op : Operation α), s'.view = op.after s.view := by
  cases step with
  | checked r =>
    obtain ⟨wf', same⟩ := (Build.mirrors_checked r).after wf
    exact ⟨wf', _, .checked r, same⟩
  | call pool name args =>
    obtain ⟨wf', same⟩ := (Build.mirrors_call pool name args).after wf
    exact ⟨wf', _, .call pool name args, same⟩
  | compile pool source scope =>
    obtain ⟨wf', same⟩ := (Build.mirrors_compile pool source scope).after wf
    exact ⟨wf', _, .compile pool source scope, same⟩
  | program position colour =>
    obtain ⟨wf', same⟩ := (Build.mirrors_ofHandles position colour).after wf
    exact ⟨wf', _, .program position colour, same⟩
  | document pool doc =>
    obtain ⟨wf', same⟩ := (Build.mirrors_document pool doc).after wf
    exact ⟨wf', _, .document pool doc, same⟩

/-- **The tables stay well-formed**: after any run of operations, failed ones among them, every name and
every node is stored once, is found under its number, and every node has its name. -/
theorem Reachable.wellFormed (reachable : s.Reachable) : s.WellFormed := by
  obtain ⟨count, run⟩ := reachable
  induction run with
  | refl => exact wellFormed_empty count
  | tail _ step ih => exact (ih.step step).1

end Tables

/-! ### The command line -/

/-- **The command line builds on tables and prints what building on pools gives.** -/
theorem sourceOf_eq_ok_iff {path vertex fragment : String} {doc : Document} :
    sourceOf path doc = .ok (vertex, fragment) ↔ ∃ program w pair,
      doc.build 0 (Workspace.empty 1) = .ok program w ∧ program.assemble w doc.options = .ok pair ∧
      pair.vertex.text = vertex ∧ pair.fragment.text = fragment := by
  have built := Build.mirrors_document 0 doc (.empty 1) (Tables.wellFormed_empty 1)
  rw [Tables.view_empty] at built
  cases run : doc.build 0 (Tables.empty 1) with
  | error f s =>
    rw [run] at built
    simp [sourceOf, EStateM.run, run, built.2]
  | ok program s =>
    rw [run] at built
    cases assembled : program.assemble s.view doc.options <;>
      simp [sourceOf, EStateM.run, run, built.2, assembled]

end ShaderDag
