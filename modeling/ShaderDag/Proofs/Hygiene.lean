import ShaderDag.Proofs.Assembly

/-!
# Names in generated source

* `Term.names` — the names that a term reads;
* `Stage.Scoped` — every statement reads only what is declared or defined before it;
* `Stage.Hygienic` — no name is declared twice, none is reserved, and every name is read in scope;
* `Hoists.inScope` — the definitions of locals are in scope, by induction over them;
* `Program.assemble_hygienic` — both stages of every program are hygienic.
-/

namespace ShaderDag

/-! ### Names of terms and statements -/

namespace Term

mutual

/-- The names that a term reads; what is called is no such name. -/
def names : Term → List String
  | .name text => [text]
  | .literal _ => []
  | .operator _ lhs rhs => lhs.names ++ rhs.names
  | .apply _ args => namesAll args

/-- The names that arguments read. -/
def namesAll : List Term → List String
  | [] => []
  | t :: ts => t.names ++ namesAll ts

end

theorem mem_namesAll {text : String} {ts : List Term} :
    text ∈ namesAll ts ↔ ∃ t ∈ ts, text ∈ t.names := by
  induction ts with
  | nil => simp [namesAll]
  | cons t ts ih => simp [namesAll, ih]

/-- An operation reads what its operands read. -/
theorem mem_names_ofNode {kind : Kind} {m : Node Term} {text : String} (operation : m.isInput = false) :
    text ∈ (ofNode kind m).names ↔ ∃ t ∈ m.children, text ∈ t.names := by
  match m, operation with
  | .operator op l r, _ => simp [ofNode, names, Node.children]
  | .call function args, _ => simp [ofNode, names, Node.children, mem_namesAll]
  | .construct args, _ => simp [ofNode, names, Node.children, mem_namesAll]
  | .literal value, _ => simp [ofNode, names, Node.children]

end Term

namespace Statement

/-- The local that a statement defines. -/
def local? : Statement → Option String
  | define _ name _ => some name
  | assign _ _ => none

/-- What a statement computes. -/
def value : Statement → Term
  | define _ _ value => value
  | assign _ value => value

end Statement

namespace Stage

/-- Every statement reads only known names; a definition makes its local known to the statements behind
it. -/
def Scoped : (known : List String) → List Statement → Prop
  | _, [] => True
  | known, statement :: rest =>
    (∀ name ∈ statement.value.names, name ∈ known) ∧ Scoped (statement.local?.toList ++ known) rest

/-- The names that a stage declares, and those of its locals. -/
def declaredNames (s : Stage) : List String :=
  s.declarations.map (·.name) ++ s.body.filterMap Statement.local?

/-- No name is declared twice, none is reserved or looks built in, and every name that a statement reads
is declared or defined before. -/
structure Hygienic (s : Stage) : Prop where
  distinct : s.declaredNames.Nodup
  unreserved : ∀ name ∈ s.declaredNames, name ∉ reservedNames ∧ startsWith builtinLead name = false
  inScope : Scoped (s.declarations.map (·.name)) s.body

theorem scoped_append {known : List String} {front back : List Statement} :
    Scoped known (front ++ back) ↔
      Scoped known front ∧ Scoped ((front.filterMap Statement.local?).reverse ++ known) back := by
  induction front generalizing known with
  | nil => simp [Scoped]
  | cons statement front ih =>
    cases statement with
    | define kind name value => simp [Scoped, Statement.local?, ih, and_assoc]
    | assign name value => simp [Scoped, Statement.local?, ih, and_assoc, List.filterMap_cons]

end Stage

/-! ### Definitions of locals -/

namespace Pool

variable {p : Pool} {names : Binder} {roots : List Nat} {id : Nat} {known : List String}

/-- The names of the nodes of a stage are known. -/
def Knows (p : Pool) (names : Binder) (roots : List Nat) (known : List String) : Prop :=
  ∀ c name, p.InStage roots c → names.nameOf? c = some name → name ∈ known

/-- A term reads names of nodes of its stage. -/
theorem Covers.names_known {t : Term} (wf : p.WellFormed) (covers : p.Covers names roots)
    (knows : p.Knows names roots known) (mem : p.InStage roots id) (written : p.term names id = .ok t) :
    ∀ name ∈ t.names, name ∈ known := by
  have bound : ∀ c text, p.InStage roots c → names.nameOf? c = some text →
      ∀ name ∈ (Term.name text).names, name ∈ known := by
    intro c text hc hn name read
    obtain rfl : name = text := by simpa [Term.names] using read
    exact knows c name hc hn
  refine covers.term_holds (motive := fun _ t => ∀ name ∈ t.names, name ∈ known) wf bound
    (fun c e m he operation free same children name read => ?_) mem written
  have shape : (m.map (·.2)).isInput = false := by
    simpa [same] using operation
  obtain ⟨t, ht, read⟩ := (Term.mem_names_ofNode shape).1 read
  obtain ⟨x, hx, rfl⟩ := Node.mem_children_map.1 ht
  exact (children x hx).2.2 name read

end Pool

namespace Hoists

variable {p : Pool} {names names' : Binder} {ids roots : List Nat} {defs : List Statement}

/-- **The definitions of locals are in scope.**  The induction is over the definitions; what carries it
is that the names given so far are known. -/
theorem inScope {known : List String} (h : Hoists p names ids defs names') (wf : p.WellFormed)
    (covers : p.Covers names roots) (inStage : ∀ id ∈ ids, p.InStage roots id)
    (knows : p.Knows names roots known) :
    Stage.Scoped known defs ∧
      p.Knows names' roots ((defs.filterMap Statement.local?).reverse ++ known) := by
  induction h generalizing known with
  | done names => exact ⟨trivial, knows⟩
  | @define names names₁ names' id ids name value defs fresh written bound _ ih =>
    obtain ⟨-, -, lookup, after⟩ := define_spec fresh bound
    obtain ⟨covers₁, covers₂⟩ := covers_define covers fresh bound
    have knows₁ : p.Knows names₁ roots known := fun c text hc hn => knows c text hc (lookup c ▸ hn)
    have knows₂ : p.Knows (names₁.withName id name) roots (name :: known) := by
      intro c text hc hn
      rw [after] at hn
      split at hn
      · cases hn
        exact List.mem_cons_self
      · exact List.mem_cons_of_mem _ (knows c text hc hn)
    obtain ⟨restScoped, restKnown⟩ := ih covers₂ (fun c hc => inStage c (List.mem_cons_of_mem _ hc)) knows₂
    refine ⟨⟨?_, restScoped⟩, ?_⟩
    · exact covers₁.names_known wf knows₁ (inStage id List.mem_cons_self) written
    · intro c text hc hn
      have := restKnown c text hc hn
      simpa [Statement.local?] using this

/-- The names of locals are those that the binder gained. -/
theorem bound_names (h : Hoists p names ids defs names') :
    names'.bound.map (·.2) = (defs.filterMap Statement.local?).reverse ++ names.bound.map (·.2) := by
  induction h with
  | done names => rfl
  | @define names names₁ names' id ids name value defs fresh written bound _ ih =>
    obtain ⟨-, -, same⟩ := Binder.uniqueName_eq fresh
    rw [ih, Binder.withName, same]
    simp [Statement.local?]

end Hoists

/-! ### Whole stages -/

namespace Pool

variable {p : Pool} {names : Binder} {roots : List Nat} {precision : Precision}
  {assignments : List (String × Nat)} {stage : Stage}

theorem StageOf.mem_declarations (h : p.StageOf roots names precision assignments stage) {name : String}
    (mem : name ∈ stage.declarations.map (·.name)) : name ∈ names.bound.map (·.2) := by
  obtain ⟨d, hd, rfl⟩ := List.mem_map.1 mem
  obtain ⟨input, -, declares⟩ := exists_of_forall₂_right h.declarations hd
  exact List.mem_map.2 ⟨(input.2, d.name), mem_of_lookup declares.name, rfl⟩

/-- Every input that a stage reads is declared. -/
theorem StageOf.knows (h : p.StageOf roots names precision assignments stage)
    (named : p.Named roots names) :
    p.Knows names (assignments.map (·.2)) (stage.declarations.map (·.name)) := by
  intro c name hc hn
  obtain ⟨d, hd, -, rfl⟩ := h.exists_declaration named hc hn
  exact List.mem_map_of_mem hd

theorem filterMap_outputs {outputs : List Statement} {names' : Binder}
    (h : List.Forall₂ (p.Assigns names') assignments outputs) :
    outputs.filterMap Statement.local? = [] := by
  induction h with
  | nil => rfl
  | cons first _ ih =>
    obtain ⟨value, -, rfl⟩ := first
    exact ih

/-- Assignments define nothing, so each reads what was known before the first. -/
theorem scoped_outputs {outputs : List Statement} {known : List String} (wf : p.WellFormed)
    (covers : p.Covers names roots) (knows : p.Knows names roots known)
    (inStage : ∀ a ∈ assignments, p.InStage roots a.2)
    (h : List.Forall₂ (p.Assigns names) assignments outputs) : Stage.Scoped known outputs := by
  induction h with
  | nil => trivial
  | cons first _ ih =>
    obtain ⟨value, written, rfl⟩ := first
    refine ⟨covers.names_known wf knows (inStage _ List.mem_cons_self) written, ?_⟩
    exact ih fun a ha => inStage a (List.mem_cons_of_mem _ ha)

/-- **Every stage is hygienic.**  Declared names and locals are names of different nodes in one binder;
a term reads names of nodes of its stage, which are declared or were defined before. -/
theorem StageOf.hygienic (h : p.StageOf roots names precision assignments stage) (wf : p.WellFormed)
    (named : p.Named roots names) : stage.Hygienic := by
  obtain ⟨defs, outputs, names', body⟩ := h.body
  have noLocals := filterMap_outputs body.outputs
  have locals : stage.body.filterMap Statement.local? = defs.filterMap Statement.local? := by
    rw [body.body_eq, List.filterMap_append, noLocals, List.append_nil]
  have sound' := body.defs.sound named.sound
  have gained := body.defs.bound_names
  have bound : ∀ name ∈ stage.declaredNames, name ∈ names'.bound.map (·.2) := by
    intro name mem
    rw [gained]
    rw [Stage.declaredNames, locals] at mem
    rcases List.mem_append.1 mem with mem | mem
    · exact List.mem_append_right _ (h.mem_declarations mem)
    · exact List.mem_append_left _ (List.mem_reverse.2 mem)
  refine ⟨?_, ?_, ?_⟩
  · have distinct := sound'.names_nodup
    rw [gained, List.nodup_append] at distinct
    obtain ⟨localsNodup, -, apart⟩ := distinct
    rw [Stage.declaredNames, locals, List.nodup_append]
    refine ⟨h.nodup_declarations named.sound, List.nodup_reverse.1 localsNodup, ?_⟩
    intro a ha b hb same
    exact apart b (List.mem_reverse.2 hb) a (h.mem_declarations ha) same.symm
  · intro name mem
    obtain ⟨entry, hentry, rfl⟩ := List.mem_map.1 (bound name mem)
    exact ⟨sound'.unreserved entry hentry, clear_of_checkIdentifier (sound'.declarable entry hentry)⟩
  · have inStage : ∀ id ∈ p.hoisted names assignments, p.InStage (assignments.map (·.2)) id :=
      fun id mem => (h.covers.hoisted mem).1
    obtain ⟨defsScoped, knows'⟩ := body.defs.inScope wf h.covers inStage (h.knows named)
    rw [body.body_eq, Stage.scoped_append]
    have covers' := h.covers.mono fun id name hn => body.defs.nameOf?_mono hn
    exact ⟨defsScoped, scoped_outputs wf covers' knows'
      (fun a ha => inStage_root (List.mem_map_of_mem ha)) body.outputs⟩

end Pool

namespace Program

variable {s : Session} {program : Program} {options : Options} {pair : ShaderPair}

/-- **Generated source is hygienic.**  In both stages every name is declared once, by a declaration or as
a local; none of them is reserved or starts like a built-in variable; and every name that a statement
reads is declared, or is a local that was defined before in the same stage. -/
theorem assemble_hygienic (reachable : s.Reachable) (given : program ∈ s.programs)
    (h : program.assemble s.workspace options = .ok pair) :
    pair.vertex.Hygienic ∧ pair.fragment.Hygienic := by
  have wf := reachable.valid.wellFormed program.pool
  obtain ⟨names, varyings, assembled⟩ :=
    Pool.assembled_of_assemble wf (present_of_reachable reachable given) h
  exact ⟨assembled.vertex.hygienic wf assembled.named, assembled.fragment.hygienic wf assembled.named⟩

/-- In the example session a sum is multiplied by itself, so the fragment stage has a local. -/
theorem sample_hygienic :
    ∃ pair, assemble ⟨0, 0, 3⟩ (Session.sample .empty []).workspace .standard = .ok pair ∧
      pair.vertex.Hygienic ∧ pair.fragment.Hygienic := by
  obtain ⟨pair, h⟩ := sample_assembles
  exact ⟨pair, h, assemble_hygienic Session.reachable_sample_empty List.mem_cons_self h⟩

end Program

end ShaderDag
