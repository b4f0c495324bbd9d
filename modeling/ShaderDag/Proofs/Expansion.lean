import ShaderDag.Proofs.Hygiene
import ShaderDag.Proofs.PathCount

/-!
# Every value is written once

A term expands a node where it writes an operator, a function, a constructor or a literal, and not a
name.  The statements of a stage are read back into the pool: inputs stand for their nodes, a local for
the node of its definition, and an operation for the node that the pool holds for it.

* `Term.expansions` — the places where a term expands something;
* `Term.node?`, `Statement.expanded` — the nodes that terms and statements expand;
* `Pool.Covers.expanded_term` — a term expands what a full walk over the unnamed nodes yields;
* `Hoists.expanded` — a definition expands the node of its local and nothing else;
* `Pool.StageOf.expanded_eq` — a stage expands the shared nodes, then the rest around them;
* `Program.assemble_writes_once` — both stages of every program expand each of their nodes once.
-/

namespace ShaderDag

/-! ### What terms and statements expand -/

/-- Which node a name stands for. -/
abbrev Referents := String → Option Nat

/-- The node of a call with the given arguments, if the pool holds it. -/
def Callee.node? (p : Pool) (args : List Nat) : Callee → Option Nat
  | .function f => do p.find? (← f.result? (args.map p.kind)) (.call f args)
  | .constructor kind => p.find? kind (.construct args)

namespace Term

mutual

/-- The subterms at the places where a term writes an operator, a function, a constructor or a literal,
operands first. -/
def expansions : Term → List Term
  | .name _ => []
  | .literal value => [.literal value]
  | .operator op lhs rhs => lhs.expansions ++ rhs.expansions ++ [.operator op lhs rhs]
  | .apply callee args => expansionsAll args ++ [.apply callee args]

/-- The subterms at such places of arguments. -/
def expansionsAll : List Term → List Term
  | [] => []
  | t :: ts => t.expansions ++ expansionsAll ts

end

mutual

/-- The node that a term stands for, if the pool holds it. -/
def node? (p : Pool) (env : Referents) : Term → Option Nat
  | .name text => env text
  | .literal value => p.find? .float (.literal value)
  | .operator op lhs rhs => do
    let a ← lhs.node? p env
    let b ← rhs.node? p env
    p.find? (← op.result? (p.kind a) (p.kind b)) (.operator op a b)
  | .apply callee args => do callee.node? p (← nodeAll? p env args)

/-- The nodes that arguments stand for. -/
def nodeAll? (p : Pool) (env : Referents) : List Term → Option (List Nat)
  | [] => some []
  | t :: ts => do return (← t.node? p env) :: (← nodeAll? p env ts)

end

@[simp] theorem expansionsAll_eq (ts : List Term) : expansionsAll ts = ts.flatMap expansions := by
  induction ts with
  | nil => rfl
  | cons t ts ih => rw [expansionsAll, ih, List.flatMap_cons]

/-- An operation expands what its operands expand, and itself. -/
theorem expansions_ofNode {kind : Kind} {m : Node Term} (operation : m.isInput = false) :
    (ofNode kind m).expansions = m.children.flatMap expansions ++ [ofNode kind m] := by
  match m, operation with
  | .operator op l r, _ => simp [ofNode, expansions, Node.children]
  | .call function args, _ => simp [ofNode, expansions, Node.children, expansionsAll_eq]
  | .construct args, _ => simp [ofNode, expansions, Node.children, expansionsAll_eq]
  | .literal value, _ => simp [ofNode, expansions, Node.children]

theorem nodeAll?_eq {p : Pool} {env : Referents} {xs : List (Nat × Term)}
    (h : ∀ x ∈ xs, x.2.node? p env = some x.1) :
    nodeAll? p env (xs.map (·.2)) = some (xs.map (·.1)) := by
  induction xs with
  | nil => rfl
  | cons x xs ih =>
    rw [List.forall_mem_cons] at h
    simp [nodeAll?, h.1, ih h.2]

end Term

namespace Statement

/-- What names stand for behind a statement: a local stands for the node of its definition. -/
def referents (p : Pool) (env : Referents) : Statement → Referents
  | define _ name value => fun other => if other = name then value.node? p env else env other
  | assign _ _ => env

/-- The nodes that statements expand, place by place. -/
def expanded (p : Pool) (env : Referents) : List Statement → List (Option Nat)
  | [] => []
  | statement :: rest =>
    statement.value.expansions.map (Term.node? p env) ++ expanded p (statement.referents p env) rest

end Statement

/-- Which input of a program has a name. -/
def Inputs.referents (i : Inputs) : Referents := fun name =>
  ((i.callerNames ++ i.varyingNames).find? (·.2 = name)).map (·.1)

/-- The nodes that the body of a stage expands, place by place. -/
def Stage.expanded (s : Stage) (p : Pool) (i : Inputs) : List (Option Nat) :=
  Statement.expanded p i.referents s.body

/-- Every node that a stage with these roots computes is expanded once, and nothing else is. -/
structure Stage.WritesOnce (s : Stage) (p : Pool) (i : Inputs) (roots : List Nat) : Prop where
  once : ∀ id, p.InStage roots id → p.isInput id = false → (s.expanded p i).count (some id) = 1
  only : ∀ place ∈ s.expanded p i, ∃ id, place = some id ∧ p.InStage roots id ∧ p.isInput id = false

/-! ### Terms of nodes -/

namespace Pool

variable {p : Pool} {names : Binder} {roots : List Nat} {id : Nat} {env : Referents}

/-- The names of the nodes of a stage stand for these nodes. -/
def Refers (p : Pool) (names : Binder) (roots : List Nat) (env : Referents) : Prop :=
  ∀ c name, p.InStage roots c → names.nameOf? c = some name → env name = some c

/-- The nodes without a name, which a term has to write out. -/
def unnamed (names : Binder) (id : Nat) : Bool := !names.isBound id

@[simp] theorem unnamed_iff : unnamed names id = true ↔ names.nameOf? id = none := by
  simp [unnamed, Binder.isBound]

theorem unnamed_of_name {name : String} (hn : names.nameOf? id = some name) :
    unnamed names id = false := by
  simp [unnamed, Binder.isBound, hn]

/-- An operation on terms that stand for the children of a node stands for the node. -/
theorem WellFormed.node?_ofNode {e : Entry} {m : Node (Nat × Term)} (wf : p.WellFormed)
    (he : p.entry? id = some e) (operation : e.node.isInput = false) (same : e.node = m.map (·.1))
    (children : ∀ x ∈ m.children, x.2.node? p env = some x.1) :
    (Term.ofNode e.kind (m.map (·.2))).node? p env = some id := by
  have found : p.find? e.kind (m.map (·.1)) = some id := wf.find?_eq_some_iff.2 ⟨e, he, rfl, same⟩
  have fits := wf.kinded id e he
  rw [same] at fits operation
  match m, operation, children, found, fits with
  | .operator op l r, _, children, found, fits =>
    have left := children l (by simp [Node.children])
    have right := children r (by simp [Node.children])
    have result : op.result? (p.kind l.1) (p.kind r.1) = some e.kind := fits
    rw [Node.map, Term.ofNode, Term.node?, left, right]
    show (do p.find? (← op.result? (p.kind l.1) (p.kind r.1)) (.operator op l.1 r.1)) = some id
    rw [result]
    exact found
  | .call function args, _, children, found, fits =>
    have all := Term.nodeAll?_eq children
    have result : function.result? ((args.map (·.1)).map p.kind) = some e.kind := fits
    rw [Node.children] at all
    rw [Node.map, Term.ofNode, Term.node?, all]
    show (do p.find? (← function.result? ((args.map (·.1)).map p.kind)) (.call function _)) = some id
    rw [result]
    exact found
  | .construct args, _, children, found, _ =>
    have all := Term.nodeAll?_eq children
    rw [Node.children] at all
    rw [Node.map, Term.ofNode, Term.node?, all]
    exact found
  | .literal value, _, _, found, fits =>
    have float : e.kind = .float := fits
    rw [float] at found
    exact found

/-- **What a term expands.**  It stands for its node, and the places where it expands something are
those of a full walk over the nodes without a name. -/
theorem Covers.expanded_term {t : Term} (wf : p.WellFormed) (covers : p.Covers names roots)
    (refers : p.Refers names roots env) (mem : p.InStage roots id) (written : p.term names id = .ok t) :
    t.node? p env = some id ∧
      t.expansions.map (Term.node? p env) = (p.fullWalk (unnamed names) [id]).map some := by
  have named : ∀ c text, p.InStage roots c → names.nameOf? c = some text →
      (Term.name text).node? p env = some c ∧ (Term.name text).expansions.map (Term.node? p env) =
        (p.fullWalk (unnamed names) [c]).map some := by
    intro c text hc hn
    rw [fullWalk_dropped (unnamed_of_name hn)]
    exact ⟨refers c text hc hn, rfl⟩
  refine covers.term_holds (motive := fun id t => t.node? p env = some id ∧
      t.expansions.map (Term.node? p env) = (p.fullWalk (unnamed names) [id]).map some) wf named
    (fun c e m he operation free same children => ?_) mem written
  have shape : (m.map (·.2)).isInput = false := by
    simpa [same] using operation
  have whole := wf.node?_ofNode he operation same fun x hx => (children x hx).2.2.1
  have below : Walk.childList p c = m.children.map (·.1) := by
    rw [wf.childList_eq he, same, Node.children_map]
  have operands : (m.children.map (·.2)).flatMap (fun t => t.expansions.map (Term.node? p env)) =
      (p.fullWalk (unnamed names) (m.children.map (·.1))).map some := by
    rw [p.fullWalk_eq_flatMap, List.map_flatMap, List.flatMap_map, List.flatMap_map]
    exact List.flatMap_congr fun x hx => (children x hx).2.2.2
  refine ⟨whole, ?_⟩
  rw [Term.expansions_ofNode shape, fullWalk_kept (unnamed_iff.2 free), below,
    Node.children_map, List.map_append,
    List.map_append, List.map_flatMap, operands, List.map_singleton, whole]
  rfl

end Pool

/-! ### Definitions and assignments -/

namespace Hoists

variable {p : Pool} {names names' : Binder} {ids roots known : List Nat} {defs : List Statement}
  {env : Referents} {keep : Nat → Bool}

/-- A definition makes its local stand for its node, and leaves the other names alone. -/
theorem refers_define {names₁ : Binder} {id : Nat} {name base : String} {value : Term} (kind : Kind)
    (sound : names.Sound) (refers : p.Refers names roots env)
    (fresh : names.uniqueName base = (name, names₁))
    (bound : names₁.bind id name = .ok (names₁.withName id name))
    (whole : value.node? p env = some id) :
    p.Refers (names₁.withName id name) roots ((Statement.define kind name value).referents p env) := by
  obtain ⟨-, unused, -, after⟩ := define_spec fresh bound
  intro c text hc hn
  rw [after] at hn
  show (if text = name then value.node? p env else env text) = some c
  split at hn
  · next same =>
    cases hn
    rw [if_pos rfl, whole, same]
  · have used : text ∈ names.used := sound.bound_used _ (mem_of_lookup hn)
    have different : text ≠ name := fun same => unused (same ▸ used)
    rw [if_neg different]
    exact refers c text hc hn

/-- **A definition expands its node and nothing else.**  Locals are defined children first, so all
children of a node have names when it is written.  What carries the induction is that a node has a name
unless it is one of those that `keep` allows and that are yet to come. -/
theorem expanded (h : Hoists p names ids defs names') (wf : p.WellFormed) (sound : names.Sound)
    (covers : p.Covers names roots) (inStage : ∀ id ∈ ids, p.InStage roots id)
    (refers : p.Refers names roots env) (order : ChildrenFirst p keep known ids)
    (named : ∀ c, (keep c = true → c ∈ known) → names.isBound c = true) :
    ∃ env', p.Refers names' roots env' ∧ ∀ rest,
      Statement.expanded p env (defs ++ rest) = ids.map some ++ Statement.expanded p env' rest := by
  induction h generalizing env known with
  | done names => exact ⟨env, refers, fun rest => rfl⟩
  | @define names names₁ names' id ids name value defs fresh written bound _ ih =>
    obtain ⟨unbound, -, lookup, after⟩ := define_spec fresh bound
    obtain ⟨covers₁, covers₂⟩ := covers_define covers fresh bound
    have refers₁ : p.Refers names₁ roots env := fun c text hc hn => refers c text hc (lookup c ▸ hn)
    obtain ⟨whole, places⟩ := covers₁.expanded_term wf refers₁ (inStage id List.mem_cons_self) written
    have alone : p.fullWalk (Pool.unnamed names₁) [id] = [id] := by
      have free : names₁.nameOf? id = none := by rw [lookup, unbound]
      have closed : ∀ c ∈ Walk.childList p id, Pool.unnamed names₁ c = false := by
        intro c step
        obtain ⟨text, hn⟩ := Option.isSome_iff_exists.1 (named c (order.1 c step))
        exact Pool.unnamed_of_name ((lookup c).trans hn)
      rw [Pool.fullWalk_kept (Pool.unnamed_iff.2 free), Pool.fullWalk_eq_nil closed, List.nil_append]
    have named₂ : ∀ c, (keep c = true → c ∈ id :: known) →
        (names₁.withName id name).isBound c = true := by
      intro c hc
      rw [Binder.isBound, after]
      split
      · rfl
      · next other =>
        exact named c fun kept => (List.mem_cons.1 (hc kept)).resolve_left other
    obtain ⟨env', refers', rests⟩ := ih (sound_define sound fresh bound) covers₂
      (fun c hc => inStage c (List.mem_cons_of_mem _ hc))
      (refers_define (p.kind id) sound refers fresh bound whole) order.2 named₂
    refine ⟨env', refers', fun rest => ?_⟩
    rw [List.cons_append, Statement.expanded, rests rest, Statement.value, places, alone]
    rfl

end Hoists

namespace Pool

variable {p : Pool} {names : Binder} {roots : List Nat} {env : Referents} {precision : Precision}
  {assignments : List (String × Nat)} {stage : Stage}

/-- Assignments name nothing, so they expand what full walks over the unnamed nodes yield. -/
theorem expanded_outputs {outputs : List Statement} (wf : p.WellFormed) (covers : p.Covers names roots)
    (refers : p.Refers names roots env) (inStage : ∀ a ∈ assignments, p.InStage roots a.2)
    (h : List.Forall₂ (p.Assigns names) assignments outputs) :
    Statement.expanded p env outputs =
      (p.fullWalk (unnamed names) (assignments.map (·.2))).map some := by
  induction h with
  | nil => rfl
  | @cons a statement assignments outputs first _ ih =>
    obtain ⟨value, written, rfl⟩ := first
    obtain ⟨-, places⟩ := covers.expanded_term wf refers (inStage a List.mem_cons_self) written
    have rest := ih fun b hb => inStage b (List.mem_cons_of_mem _ hb)
    rw [Statement.expanded, Statement.value, places, Statement.referents, rest, List.map_cons,
      p.fullWalk_cons _ a.2 (assignments.map (·.2)), List.map_append]

/-! ### Whole stages -/

/-- The name of an input stands for the input, for no two have one name. -/
theorem Named.refers {all : List Nat} (named : p.Named all names) (roots : List Nat) :
    p.Refers names roots (p.inputs all).referents := by
  intro c name _ hn
  have mem := (named.nameOf?_iff c name).1 hn
  cases found : ((p.inputs all).callerNames ++ (p.inputs all).varyingNames).find? (·.2 = name) with
  | none => exact absurd (List.find?_eq_none.1 found (c, name) mem) (by simp)
  | some entry =>
    have text : entry.2 = name := by simpa using List.find?_some found
    have other : names.nameOf? entry.1 = some name :=
      (named.nameOf?_iff entry.1 name).2 (text ▸ List.mem_of_find?_eq_some found)
    rw [Inputs.referents, found, Option.map_some, named.sound.id_eq hn other]

/-- The unnamed nodes on the way from the roots of a stage are those that it computes. -/
theorem Named.mem_fullWalk_unnamed {all : List Nat} {id : Nat} (named : p.Named all names)
    (covers : p.Covers names roots) :
    id ∈ p.fullWalk (unnamed names) roots ↔ p.InStage roots id ∧ p.isInput id = false := by
  have computed : ∀ c, p.isInput c = false → unnamed names c = true := by
    intro c operation
    refine unnamed_iff.2 (Option.eq_none_iff_forall_ne_some.2 fun name hn => ?_)
    rw [(named.exists_name_iff.1 ⟨name, hn⟩).2] at operation
    cases operation
  rw [mem_fullWalk]
  constructor
  · rintro ⟨free, r, hr, path⟩
    have mem := covers.inStage hr path
    refine ⟨mem, Bool.eq_false_iff.2 fun input => ?_⟩
    obtain ⟨name, hn⟩ := covers.inputs id mem input
    rw [unnamed_of_name hn] at free
    cases free
  · rintro ⟨⟨r, hr, path⟩, operation⟩
    refine ⟨computed id operation, r, hr, ?_⟩
    exact Relation.ReflTransGen.mono (fun a b step => ⟨computed a step.1, step.2⟩) _ _ path

/-- **What a stage expands.**  Its locals expand the shared nodes, its assignments the rest. -/
theorem StageOf.expanded_eq {all : List Nat} (h : p.StageOf all names precision assignments stage)
    (wf : p.WellFormed) (named : p.Named all names) :
    stage.expanded p (p.inputs all) =
      (p.hoisted names assignments ++ p.fullWalk
        (Occurrences.keepRest p (unnamed names) (assignments.map (·.2)))
        (assignments.map (·.2))).map some := by
  obtain ⟨defs, outputs, names', body⟩ := h.body
  have inStage : ∀ id ∈ p.hoisted names assignments, p.InStage (assignments.map (·.2)) id :=
    fun id mem => (h.covers.hoisted mem).1
  obtain ⟨env', refers', rests⟩ := body.defs.expanded wf named.sound h.covers inStage (named.refers _)
    (Occurrences.childrenFirst_shared p (unnamed names) _) fun c hc => by
      simpa [unnamed] using hc
  have covers' := h.covers.mono fun id name hn => body.defs.nameOf?_mono hn
  have rest : unnamed names' = Occurrences.keepRest p (unnamed names) (assignments.map (·.2)) := by
    funext c
    rw [unnamed, body.defs.isBound, Bool.not_or]
    rfl
  rw [Stage.expanded, body.body_eq, rests, expanded_outputs wf covers' refers'
    (fun a ha => inStage_root (List.mem_map_of_mem ha)) body.outputs, rest, List.map_append]

/-- **Every stage writes each of its values once.** -/
theorem StageOf.writesOnce {all : List Nat} (h : p.StageOf all names precision assignments stage)
    (wf : p.WellFormed) (named : p.Named all names) :
    stage.WritesOnce p (p.inputs all) (assignments.map (·.2)) := by
  have distinct := Occurrences.nodup_shared_append p (unnamed names) (assignments.map (·.2))
  have members : ∀ id, id ∈ p.hoisted names assignments ++ p.fullWalk
        (Occurrences.keepRest p (unnamed names) (assignments.map (·.2))) (assignments.map (·.2)) ↔
      p.InStage (assignments.map (·.2)) id ∧ p.isInput id = false := fun id =>
    Occurrences.mem_shared_append.trans (named.mem_fullWalk_unnamed h.covers)
  refine ⟨fun id mem operation => ?_, fun place hp => ?_⟩
  · rw [h.expanded_eq wf named, List.count_map_of_injective _ _ (Option.some_injective _)]
    exact List.count_eq_one_of_mem distinct ((members id).2 ⟨mem, operation⟩)
  · rw [h.expanded_eq wf named] at hp
    obtain ⟨id, hid, rfl⟩ := List.mem_map.1 hp
    exact ⟨id, rfl, (members id).1 hid⟩

end Pool

namespace Program

variable {s : Session} {program : Program} {options : Options} {pair : ShaderPair}

/-- **Generated source computes every value once.**  In the vertex stage, which computes what the
varyings interpolate and the position, and in the fragment stage, which computes the colour, every
operator, call, constructor and literal that the stage needs is written out at one place of all its
statements; and nothing else is written out. -/
theorem assemble_writes_once (reachable : s.Reachable) (given : program ∈ s.programs)
    (h : program.assemble s.workspace options = .ok pair) :
    let p := s.workspace.pool program.pool
    let inputs := p.inputs [program.position, program.colour]
    pair.vertex.WritesOnce p inputs (inputs.varyings.map (·.2) ++ [program.position]) ∧
      pair.fragment.WritesOnce p inputs [program.colour] := by
  intro p inputs
  have wf : p.WellFormed := reachable.valid.wellFormed program.pool
  obtain ⟨names, varyings, assembled⟩ :=
    Pool.assembled_of_assemble wf (present_of_reachable reachable given) h
  have vertex := assembled.vertex.writesOnce wf assembled.named
  rw [Pool.roots_of_outputs assembled.outputs] at vertex
  exact ⟨vertex, assembled.fragment.writesOnce wf assembled.named⟩

/-- In the example session the colour is the square of a sum, which the fragment stage adds up once. -/
theorem sample_writes_once :
    ∃ pair, assemble ⟨0, 0, 3⟩ (Session.sample .empty []).workspace .standard = .ok pair ∧
      ∀ id ∈ [2, 3], (pair.fragment.expanded (Pool.sample .empty)
        ((Pool.sample .empty).inputs [0, 3])).count (some id) = 1 := by
  obtain ⟨pair, h⟩ := sample_assembles
  obtain ⟨-, fragment⟩ := assemble_writes_once Session.reachable_sample_empty List.mem_cons_self h
  have square : (Pool.sample .empty).isInput 3 = false := by decide +kernel
  have sum : (Pool.sample .empty).isInput 2 = false := by decide +kernel
  have factor : (Pool.sample .empty).Child 3 2 := List.contains_iff_mem.1 (by decide +kernel)
  have top : (Pool.sample .empty).InStage [3] 3 := Pool.inStage_root List.mem_cons_self
  refine ⟨pair, h, List.forall_mem_cons.2 ⟨?_, List.forall_mem_singleton.2 ?_⟩⟩
  · exact fragment.once 2 (top.child square factor) sum
  · exact fragment.once 3 top square

end Program

end ShaderDag
