import ShaderDag.Proofs.Assembly

/-!
# What generated source computes

Values are of any type.  An interpretation says what inputs, operators, functions, constructors and
literals stand for; a node then has a value, computed from the leaves up, and statements change a store.

* `Interpretation`, `Pool.eval?` — the value of a node;
* `Term.eval?`, `Statement.exec?`, `Stage.run?` — the value of a term, and what statements do to a store;
* `Pool.Agrees` — every name of a node of a stage holds the value of the node;
* `Pool.Covers.eval_term` — under such a store a term has the value of its node;
* `Hoists.exec`, `Pool.exec_outputs` — definitions and assignments, by induction over them;
* `Program.assemble_meaning` — the two stages compute the position, the varyings and the colour.
-/

namespace ShaderDag

variable {V : Type}

/-! ### Values of nodes -/

/-- What inputs, operators, functions, constructors and literals stand for.  Inputs and literals are
known by their text only. -/
structure Interpretation (V : Type) where
  attributes : String → V
  uniforms : String → V
  operator : Operator → V → V → V
  function : Builtin → List V → V
  constructor : Kind → List V → V
  literal : String → V

namespace Interpretation

/-- The value of an operation of a kind whose children are values.  A varying has the value of what it
interpolates. -/
def apply (I : Interpretation V) (kind : Kind) : Node V → V
  | .operator op lhs rhs => I.operator op lhs rhs
  | .call function args => I.function function args
  | .construct args => I.constructor kind args
  | .varying inner => inner
  | .attribute name => I.attributes name
  | .uniform name => I.uniforms name
  | .literal value => I.literal value.text

/-- The value of a call. -/
def call (I : Interpretation V) : Callee → List V → V
  | .function function => I.function function
  | .constructor kind => I.constructor kind

end Interpretation

/-- The value of a node, computed by recursion over everything below it. -/
def Pool.eval? (I : Interpretation V) (p : Pool) (id : Nat) : Option V := p.fold? I.apply id

/-! ### Values of terms, and statements -/

/-- What each name holds, if anything. -/
abbrev Store (V : Type) := String → Option V

namespace Store

/-- The store in which nothing is held. -/
def blank : Store V := fun _ => none

/-- The store in which a name holds a value. -/
def set (σ : Store V) (name : String) (value : V) : Store V :=
  fun other => if other = name then some value else σ other

@[simp] theorem set_same (σ : Store V) (name : String) (value : V) : σ.set name value name = some value :=
  if_pos rfl

theorem set_other (σ : Store V) {name other : String} (value : V) (h : other ≠ name) :
    σ.set name value other = σ other := if_neg h

end Store

namespace Term

mutual

/-- The value of a term, if every name that it reads holds one. -/
def eval? (I : Interpretation V) (σ : Store V) : Term → Option V
  | .name text => σ text
  | .literal value => some (I.literal value.text)
  | .operator op lhs rhs => do return I.operator op (← eval? I σ lhs) (← eval? I σ rhs)
  | .apply callee args => do return I.call callee (← evalAll? I σ args)

/-- The values of arguments. -/
def evalAll? (I : Interpretation V) (σ : Store V) : List Term → Option (List V)
  | [] => some []
  | t :: ts => do return (← eval? I σ t) :: (← evalAll? I σ ts)

end

variable {I : Interpretation V} {σ : Store V}

theorem evalAll?_of_map {ts : List Term} {values : List V} (h : ts.map (eval? I σ) = values.map some) :
    evalAll? I σ ts = some values := by
  induction ts generalizing values with
  | nil =>
    cases values with
    | nil => rfl
    | cons v vs => simp at h
  | cons t ts ih =>
    cases values with
    | nil => simp at h
    | cons v vs =>
      simp only [List.map_cons, List.cons.injEq] at h
      simp [evalAll?, h.1, ih h.2]

/-- An operation on terms has the value of the operation on their values. -/
theorem eval?_ofNode {kind : Kind} {m : Node Term} {values : Node V} (operation : m.isInput = false)
    (h : m.map (eval? I σ) = values.map some) :
    eval? I σ (ofNode kind m) = some (I.apply kind values) := by
  match m, values, operation, h with
  | .operator op l r, .operator op' a b, _, h =>
    simp only [Node.map, Node.operator.injEq] at h
    simp [ofNode, eval?, Interpretation.apply, h]
  | .call function args, .call function' vs, _, h =>
    simp only [Node.map, Node.call.injEq] at h
    simp [ofNode, eval?, Interpretation.apply, Interpretation.call, evalAll?_of_map h.2, h.1]
  | .construct args, .construct vs, _, h =>
    simp only [Node.map, Node.construct.injEq] at h
    simp [ofNode, eval?, Interpretation.apply, Interpretation.call, evalAll?_of_map h]
  | .literal value, .literal value', _, h =>
    simp only [Node.map, Node.literal.injEq] at h
    simp [ofNode, eval?, Interpretation.apply, h]

end Term

namespace Statement

/-- Executes a statement as an assignment. -/
def exec? (I : Interpretation V) (σ : Store V) : Statement → Option (Store V)
  | define _ name value => do return σ.set name (← value.eval? I σ)
  | assign name value => do return σ.set name (← value.eval? I σ)

/-- Executes statements in order. -/
def execAll? (I : Interpretation V) (σ : Store V) (statements : List Statement) : Option (Store V) :=
  statements.foldlM (exec? I) σ

end Statement

/-- What a declared input holds at first.  A varying comes from outside. -/
def Declaration.initial? (I : Interpretation V) (incoming : Store V) (d : Declaration) : Option V :=
  match d.storage with
  | .attribute => some (I.attributes d.name)
  | .uniform _ => some (I.uniforms d.name)
  | .varying => incoming d.name

namespace Stage

/-- What names hold before the first statement of a stage; only inputs hold anything. -/
def start (s : Stage) (I : Interpretation V) (incoming : Store V) : Store V := fun name =>
  (s.declarations.find? (·.name = name)).bind (·.initial? I incoming)

/-- What names hold after the last statement of a stage. -/
def run? (s : Stage) (I : Interpretation V) (incoming : Store V) : Option (Store V) :=
  Statement.execAll? I (s.start I incoming) s.body

theorem start_eq {s : Stage} {I : Interpretation V} {incoming : Store V} {d : Declaration}
    (distinct : (s.declarations.map (·.name)).Nodup) (h : d ∈ s.declarations) :
    s.start I incoming d.name = d.initial? I incoming := by
  cases found : s.declarations.find? (·.name = d.name) with
  | none =>
    have := List.find?_eq_none.1 found d h
    simp at this
  | some other =>
    have same : other.name = d.name := by simpa using List.find?_some found
    have := List.inj_on_of_nodup_map distinct (List.mem_of_find?_eq_some found) h same
    rw [start, found, this]
    rfl

end Stage

/-! ### Stores that agree with the values of nodes -/

namespace Pool

variable {I : Interpretation V} {p : Pool} {names : Binder} {roots : List Nat} {σ : Store V} {id : Nat}

/-- Every name of a node of a stage holds the value of the node. -/
def Agrees (I : Interpretation V) (p : Pool) (names : Binder) (roots : List Nat) (σ : Store V) : Prop :=
  ∀ c name, p.InStage roots c → names.nameOf? c = some name → σ name = p.eval? I c

/-- A name that no node of the stage has may be assigned. -/
theorem Agrees.set {name : String} (agrees : p.Agrees I names roots σ) (value : V)
    (other : ∀ c, p.InStage roots c → names.nameOf? c ≠ some name) :
    p.Agrees I names roots (σ.set name value) := by
  intro c text hc hn
  have different : text ≠ name := fun same => other c hc (same ▸ hn)
  rw [σ.set_other value different]
  exact agrees c text hc hn

theorem WellFormed.exists_eval (wf : p.WellFormed) (I : Interpretation V) (h : id < p.size) :
    ∃ v, p.eval? I id = some v := wf.exists_fold I.apply id h

theorem eval?_attribute {name : String} (h : p.attributeName? id = some name) :
    p.eval? I id = some (I.attributes name) := by
  have node := attributeName?_eq_some_iff.1 h
  rw [eval?, fold?, node]
  rfl

theorem eval?_uniform {name : String} (h : p.uniformName? id = some name) :
    p.eval? I id = some (I.uniforms name) := by
  have node := uniformName?_eq_some_iff.1 h
  rw [eval?, fold?, node]
  rfl

/-- A varying has the value of what it interpolates. -/
theorem eval?_varying {inner : Nat} (h : p.varyingInner? id = some inner) :
    p.eval? I id = p.eval? I inner := by
  obtain ⟨i, rfl, node⟩ := varyingInner?_eq_some_iff.1 h
  rw [eval?, fold?, node]
  show (do
    let values ← (do return Node.varying (← p.fold? I.apply i.val) : Option (Node V))
    return I.apply (p.kind id) values) = p.fold? I.apply i.val
  cases p.fold? I.apply i.val with
  | none => rfl
  | some v => rfl

/-- **A term has the value of its node.** -/
theorem Covers.eval_term {t : Term} (wf : p.WellFormed) (covers : p.Covers names roots)
    (agrees : p.Agrees I names roots σ) (mem : p.InStage roots id) (written : p.term names id = .ok t) :
    ∃ v, t.eval? I σ = some v ∧ p.eval? I id = some v := by
  have bound : ∀ c text, p.InStage roots c → names.nameOf? c = some text →
      ∃ v, (Term.name text).eval? I σ = some v ∧ p.eval? I c = some v := by
    intro c text hc hn
    obtain ⟨v, hv⟩ := wf.exists_eval I (covers.lt_size hc)
    refine ⟨v, ?_, hv⟩
    rw [Term.eval?, agrees c text hc hn, hv]
  refine covers.term_holds (motive := fun id t => ∃ v, t.eval? I σ = some v ∧ p.eval? I id = some v) wf
    bound (fun c e m he operation _ same children => ?_) mem written
  have valued : ∀ x ∈ m.children, ∃ y : (Nat × Term) × V, y.1 = x ∧
      x.2.eval? I σ = some y.2 ∧ p.eval? I x.1 = some y.2 := by
    intro x hx
    obtain ⟨-, -, v, ht, hv⟩ := children x hx
    exact ⟨(x, v), rfl, ht, hv⟩
  obtain ⟨m', rfl, held⟩ := Node.exists_map_eq valued
  refine ⟨I.apply e.kind (m'.map (·.2)), Term.eval?_ofNode ?_ ?_, ?_⟩
  · simpa [same] using operation
  · simp only [Node.map_map]
    exact Node.map_congr fun y hy => (held y hy).1
  · refine fold?_eq_some_iff.2 ⟨e, he, wf.descending c e he, m'.map (·.2), ?_, rfl⟩
    rw [same, Node.map_map, Node.map_map, Node.map_map]
    exact Node.map_congr fun y hy => (held y hy).2

end Pool

/-! ### Definitions and assignments -/

namespace Hoists

variable {I : Interpretation V} {p : Pool} {names names' : Binder} {ids roots : List Nat}
  {defs : List Statement} {σ : Store V}

/-- **Definitions keep the store in agreement.**  The name of a local is new, so no earlier name loses
its value, and the local gets the value of its node. -/
theorem exec (h : Hoists p names ids defs names') (wf : p.WellFormed) (sound : names.Sound)
    (covers : p.Covers names roots) (inStage : ∀ id ∈ ids, p.InStage roots id)
    (agrees : p.Agrees I names roots σ) :
    ∃ σ', Statement.execAll? I σ defs = some σ' ∧ p.Agrees I names' roots σ' := by
  induction h generalizing σ with
  | done names => exact ⟨σ, rfl, agrees⟩
  | @define names names₁ names' id ids name value defs fresh written bound _ ih =>
    obtain ⟨-, unused, lookup, after⟩ := define_spec fresh bound
    obtain ⟨covers₁, covers₂⟩ := covers_define covers fresh bound
    have agrees₁ : p.Agrees I names₁ roots σ := fun c text hc hn => agrees c text hc (lookup c ▸ hn)
    obtain ⟨v, ht, hv⟩ := covers₁.eval_term wf agrees₁ (inStage id List.mem_cons_self) written
    have agrees₂ : p.Agrees I (names₁.withName id name) roots (σ.set name v) := by
      intro c text hc hn
      rw [after] at hn
      split at hn
      · next same =>
        cases hn
        rw [σ.set_same, same, hv]
      · have used : text ∈ names.used := sound.bound_used _ (mem_of_lookup hn)
        have different : text ≠ name := fun same => unused (same ▸ used)
        rw [σ.set_other v different]
        exact agrees c text hc hn
    obtain ⟨σ', run, agrees'⟩ := ih (sound_define sound fresh bound) covers₂
      (fun c hc => inStage c (List.mem_cons_of_mem _ hc)) agrees₂
    refine ⟨σ', ?_, agrees'⟩
    rw [Statement.execAll?, List.foldlM_cons, Statement.exec?, ht]
    exact run

end Hoists

namespace Pool

variable {I : Interpretation V} {p : Pool} {names : Binder} {roots : List Nat} {precision : Precision}
  {assignments : List (String × Nat)} {stage : Stage} {σ : Store V}

/-- **Assignments compute what they are for.**  They assign different names, none of which is that of a
node of the stage, so each is executed under a store that agrees and none is overwritten. -/
theorem exec_outputs {outputs : List Statement} (wf : p.WellFormed) (covers : p.Covers names roots)
    (inStage : ∀ a ∈ assignments, p.InStage roots a.2) (distinct : (assignments.map (·.1)).Nodup)
    (other : ∀ a ∈ assignments, ∀ c, p.InStage roots c → names.nameOf? c ≠ some a.1)
    (agrees : p.Agrees I names roots σ) (h : List.Forall₂ (p.Assigns names) assignments outputs) :
    ∃ σ', Statement.execAll? I σ outputs = some σ' ∧
      (∀ a ∈ assignments, ∃ v, p.eval? I a.2 = some v ∧ σ' a.1 = some v) ∧
      ∀ name ∉ assignments.map (·.1), σ' name = σ name := by
  induction h generalizing σ with
  | nil => exact ⟨σ, rfl, by simp, fun _ _ => rfl⟩
  | @cons a statement assignments outputs first _ ih =>
    obtain ⟨value, written, rfl⟩ := first
    rw [List.map_cons, List.nodup_cons] at distinct
    obtain ⟨v, ht, hv⟩ := covers.eval_term wf agrees (inStage a List.mem_cons_self) written
    obtain ⟨σ', run, done, kept⟩ := ih (fun b hb => inStage b (List.mem_cons_of_mem _ hb)) distinct.2
      (fun b hb => other b (List.mem_cons_of_mem _ hb)) (agrees.set v (other a List.mem_cons_self))
    refine ⟨σ', ?_, List.forall_mem_cons.2 ⟨⟨v, hv, ?_⟩, done⟩, ?_⟩
    · rw [Statement.execAll?, List.foldlM_cons, Statement.exec?, ht]
      exact run
    · rw [kept a.1 distinct.1, σ.set_same]
    · intro name outside
      rw [List.map_cons, List.mem_cons, not_or] at outside
      rw [kept name outside.2, σ.set_other v outside.1]

/-! ### Stages -/

/-- Before the first statement, the inputs of a stage hold their values, if the varyings do. -/
theorem StageOf.agrees_start (h : p.StageOf roots names precision assignments stage)
    (named : p.Named roots names) {incoming : Store V}
    (held : ∀ v name, p.InStage (assignments.map (·.2)) v → p.IsVarying v →
      names.nameOf? v = some name → incoming name = p.eval? I v) :
    p.Agrees I names (assignments.map (·.2)) (stage.start I incoming) := by
  intro c name hc hn
  obtain ⟨d, hd, shape, rfl⟩ := h.exists_declaration named hc hn
  rw [Stage.start_eq (h.nodup_declarations named.sound) hd, Declaration.initial?]
  rcases shape with ⟨storage, ha⟩ | ⟨⟨precision, storage⟩, hu⟩ | ⟨storage, varying⟩
  · rw [storage, eval?_attribute ha]
  · rw [storage, eval?_uniform hu]
  · rw [storage]
    exact held c d.name hc varying hn

/-- **A stage computes what it assigns.** -/
theorem StageOf.run (h : p.StageOf roots names precision assignments stage) (wf : p.WellFormed)
    (named : p.Named roots names) {incoming : Store V}
    (held : ∀ v name, p.InStage (assignments.map (·.2)) v → p.IsVarying v →
      names.nameOf? v = some name → incoming name = p.eval? I v)
    (distinct : (assignments.map (·.1)).Nodup)
    (outside : ∀ a ∈ assignments, startsWith builtinLead a.1 = true ∨
      ∃ v, names.nameOf? v = some a.1 ∧ ¬p.InStage (assignments.map (·.2)) v) :
    ∃ σ', stage.run? I incoming = some σ' ∧
      ∀ a ∈ assignments, ∃ v, p.eval? I a.2 = some v ∧ σ' a.1 = some v := by
  obtain ⟨defs, outputs, names', body⟩ := h.body
  have inStage : ∀ id ∈ p.hoisted names assignments, p.InStage (assignments.map (·.2)) id :=
    fun id mem => (h.covers.hoisted mem).1
  obtain ⟨σ₁, defsRun, agrees⟩ :=
    body.defs.exec wf named.sound h.covers inStage (h.agrees_start (I := I) named held)
  have sound' := body.defs.sound named.sound
  have covers' := h.covers.mono fun id name hn => body.defs.nameOf?_mono hn
  have other : ∀ a ∈ assignments, ∀ c, p.InStage (assignments.map (·.2)) c →
      names'.nameOf? c ≠ some a.1 := by
    intro a ha c hc hn
    rcases outside a ha with builtin | ⟨v, hv, away⟩
    · have clear := clear_of_checkIdentifier (sound'.declarable _ (mem_of_lookup hn))
      rw [builtin] at clear
      exact absurd clear (by simp)
    · have same := sound'.id_eq hn (body.defs.nameOf?_mono hv)
      exact away (same ▸ hc)
  obtain ⟨σ', outputsRun, done, -⟩ := exec_outputs wf covers'
    (fun a ha => inStage_root (List.mem_map_of_mem ha)) distinct other agrees body.outputs
  refine ⟨σ', ?_, done⟩
  rw [Stage.run?, body.body_eq, Statement.execAll?, List.foldlM_append]
  rw [Statement.execAll?] at defsRun outputsRun
  rw [defsRun]
  exact outputsRun

variable {position colour : Nat} {options : Options} {varyings : List (String × Nat)} {pair : ShaderPair}

theorem Assembled.mem_varyings (h : p.Assembled position colour options names varyings pair)
    {assignment : String × Nat} (mem : assignment ∈ varyings) :
    ∃ v, p.varyingInner? v = some assignment.2 ∧ names.nameOf? v = some assignment.1 := by
  obtain ⟨⟨v, inner⟩, listed, hn, same⟩ := exists_of_forall₂_right h.outputs mem
  exact ⟨v, same ▸ (Pool.mem_varyings.1 listed).2, hn⟩

/-- The vertex stage computes the position and what the varyings interpolate. -/
theorem Assembled.run_vertex (h : p.Assembled position colour options names varyings pair)
    (wf : p.WellFormed) (I : Interpretation V) :
    ∃ σ, pair.vertex.run? I .blank = some σ ∧
      ∀ a ∈ varyings ++ [("gl_Position", position)], ∃ v, p.eval? I a.2 = some v ∧ σ a.1 = some v := by
  have apart := vertexRoots_clear_iff.2 h.varyingsApart
  rw [← roots_of_outputs h.outputs] at apart
  refine h.vertex.run wf h.named (fun v _ mem varying _ => absurd varying (apart v mem)) ?_ ?_
  · rw [List.map_append, List.nodup_append]
    refine ⟨?_, by simp, ?_⟩
    · have ids := nodup_input_keys p [position, colour]
      rw [List.map_append, keys_varyingNames] at ids
      exact h.named.sound.nodup_names (h.outputs.imp fun _ _ out => out.1) (List.nodup_append.1 ids).2.1
    · intro text ht output ho same
      obtain ⟨a, ha, rfl⟩ := List.mem_map.1 ht
      obtain ⟨v, -, hn⟩ := h.mem_varyings ha
      have clear := clear_of_checkIdentifier (h.named.sound.declarable _ (mem_of_lookup hn))
      rw [same, List.mem_singleton.1 ho] at clear
      exact absurd clear (show ¬startsWith builtinLead "gl_Position" = false by decide)
  · intro a ha
    rcases List.mem_append.1 ha with ha | ha
    · obtain ⟨v, hv, hn⟩ := h.mem_varyings ha
      exact .inr ⟨v, hn, fun mem => apart v mem ⟨_, hv⟩⟩
    · rw [List.mem_singleton.1 ha]
      exact .inl (show startsWith builtinLead "gl_Position" = true by decide)

end Pool

namespace Program

variable {s : Session} {program : Program} {options : Options} {pair : ShaderPair}

/-- **Generated source means the program.**  Whatever inputs, operators, functions, constructors and
literals stand for, the vertex stage leaves the value of the position and, under the name of every
varying, the value of what it interpolates; and the fragment stage, in which the varyings hold what the
vertex stage left, leaves the value of the colour. -/
theorem assemble_meaning (I : Interpretation V) (reachable : s.Reachable) (given : program ∈ s.programs)
    (h : program.assemble s.workspace options = .ok pair) :
    let p := s.workspace.pool program.pool
    ∃ vertex fragment : Store V,
      pair.vertex.run? I .blank = some vertex ∧ pair.fragment.run? I vertex = some fragment ∧
      (∃ value, p.eval? I program.position = some value ∧ vertex "gl_Position" = some value) ∧
      (∀ entry ∈ (p.inputs [program.position, program.colour]).varyingNames, ∃ inner value,
        p.varyingInner? entry.1 = some inner ∧ p.eval? I inner = some value ∧
          vertex entry.2 = some value) ∧
      ∃ value, p.eval? I program.colour = some value ∧ fragment "gl_FragColor" = some value := by
  intro p
  have wf : p.WellFormed := reachable.valid.wellFormed program.pool
  obtain ⟨names, varyings, assembled⟩ :=
    Pool.assembled_of_assemble wf (present_of_reachable reachable given) h
  obtain ⟨vertex, vertexRun, computed⟩ := assembled.run_vertex wf I
  -- what the vertex stage left under the name of a varying
  have left : ∀ v name inner, p.Uses [program.position, program.colour] v →
      names.nameOf? v = some name → p.varyingInner? v = some inner →
      ∃ value, p.eval? I inner = some value ∧ vertex name = some value := by
    intro v name inner used hn hv
    obtain ⟨out, hout, hname, same : out.2 = inner⟩ :=
      exists_of_forall₂_left assembled.outputs (Pool.mem_varyings.2 ⟨used, hv⟩)
    rw [hn] at hname
    cases hname
    obtain ⟨value, heval, hstore⟩ := computed out (List.mem_append_left _ hout)
    exact ⟨value, same ▸ heval, hstore⟩
  have held : ∀ v name, p.InStage ([("gl_FragColor", program.colour)].map (·.2)) v → p.IsVarying v →
      names.nameOf? v = some name → vertex name = p.eval? I v := by
    rintro v name - ⟨inner, hv⟩ hn
    obtain ⟨used, -⟩ := assembled.named.exists_name_iff.1 ⟨name, hn⟩
    obtain ⟨value, heval, hstore⟩ := left v name inner used hn hv
    rw [hstore, Pool.eval?_varying hv, heval]
  obtain ⟨fragment, fragmentRun, coloured⟩ :=
    assembled.fragment.run wf assembled.named held (by simp) fun a ha => by
      rw [List.mem_singleton.1 ha]
      exact .inl (show startsWith builtinLead "gl_FragColor" = true by decide)
  refine ⟨vertex, fragment, vertexRun, fragmentRun, ?_, ?_, ?_⟩
  · exact computed ("gl_Position", program.position) (by simp)
  · rintro ⟨v, name⟩ mem
    have hn : names.nameOf? v = some name :=
      (assembled.named.nameOf?_iff v name).2 (List.mem_append_right _ mem)
    obtain ⟨used, inner, hv⟩ := Pool.mem_varyingNames_keys.1 (List.mem_map.2 ⟨(v, name), mem, rfl⟩)
    obtain ⟨value, heval, hstore⟩ := left v name inner used hn hv
    exact ⟨inner, value, hv, heval, hstore⟩
  · exact coloured ("gl_FragColor", program.colour) (by simp)

/-- Values are numbers, and every attribute is three. -/
def threes : Interpretation Nat where
  attributes _ := 3
  uniforms _ := 0
  operator
    | .add, a, b => a + b
    | .sub, a, b => a - b
    | .mul, a, b => a * b
  function _ args := args.foldr (· + ·) 0
  constructor _ args := args.foldr (· + ·) 0
  literal _ := 0

/-- If the corner is three, then the colour of the example session is the square of six. -/
theorem sample_meaning :
    ∃ pair vertex fragment,
      assemble ⟨0, 0, 3⟩ (Session.sample .empty []).workspace .standard = .ok pair ∧
      pair.vertex.run? threes .blank = some vertex ∧ pair.fragment.run? threes vertex = some fragment ∧
      vertex "gl_Position" = some 3 ∧ fragment "gl_FragColor" = some 36 := by
  obtain ⟨pair, h⟩ := sample_assembles
  obtain ⟨vertex, fragment, hv, hf, ⟨a, ha, position⟩, -, b, hb, colour⟩ :=
    assemble_meaning threes Session.reachable_sample_empty List.mem_cons_self h
  have three : (Pool.sample .empty).eval? threes 0 = some 3 := by decide +kernel
  have square : (Pool.sample .empty).eval? threes 3 = some 36 := by decide +kernel
  refine ⟨pair, vertex, fragment, h, hv, hf, ?_, ?_⟩
  · rw [position, ← ha]
    exact three
  · rw [colour, ← hb]
    exact square

end Program

end ShaderDag
