import ShaderDag.Proofs.Lowering

/-!
# What documents mean

A document names its inputs and definitions one after the other, and its outputs may use all of them.  What
it means can be said without any pool: a glossary, which gives every name a tree, and the trees of the two
outputs.  Building follows this meaning in every pool, whatever the pool holds.

* `Clause` — what a document gives a name to; `Document.buildScope_eq` — building goes clause by clause;
* `Glossary`, `Glosses` — the names of some clauses with their trees;
* `Glosses.holds` — a finished glossary satisfies each of its clauses, so their order does not matter;
* `Document.Means` — the meaning of a document;
* `Build.outcome_document` — a document is built exactly if it has a meaning, and into that.
-/

namespace ShaderDag

/-! ### Clauses -/

/-- What a document gives a name to. -/
inductive Clause where
  | attribute (name : String) (kind : Kind)
  | uniform (name : String) (kind : Kind)
  | definition (d : Definition)

namespace Clause

/-- The name that a clause is about. -/
def name : Clause → String
  | .attribute name _ => name
  | .uniform name _ => name
  | .definition d => d.name

/-- The node of a clause. -/
def build (pool : Nat) (scope : Scope) : Clause → Build Handle
  | .attribute name kind => Build.withinItem (.attribute name) (Build.addAttribute pool name kind)
  | .uniform name kind => Build.addUniform pool name kind
  | .definition d => Build.withinItem (.definition d.name) (Document.buildDefinition pool scope d)

end Clause

namespace Document

/-- The clauses of a document in the order in which they are built. -/
def clauses (doc : Document) : List Clause :=
  doc.attributes.entries.map (fun e => .attribute e.1 e.2) ++
    (doc.uniforms.entries.map (fun e => .uniform e.1 e.2) ++ doc.definitions.map .definition)

/-- Builds clauses in order; the name of each is visible to the later ones. -/
def buildClauses (pool : Nat) (scope : Scope) : List Clause → Build Scope
  | [] => pure scope
  | c :: more => do
    Build.ofExcept (checkIdentifier c.name)
    let h ← c.build pool scope
    let scope ← Build.ofExcept (scope.define c.name h)
    buildClauses pool scope more

theorem buildClauses_append {pool : Nat} {scope : Scope} (front back : List Clause) :
    buildClauses pool scope (front ++ back) =
      buildClauses pool scope front >>= fun scope => buildClauses pool scope back := by
  induction front generalizing scope with
  | nil => exact (pure_bind _ _).symm
  | cons c front ih => simp only [List.cons_append, buildClauses, bind_assoc, ih]

theorem buildAttributes_eq {pool : Nat} {scope : Scope} (entries : List (String × Kind)) :
    buildAttributes pool scope entries =
      buildClauses pool scope (entries.map fun e => .attribute e.1 e.2) := by
  induction entries generalizing scope with
  | nil => rfl
  | cons e entries ih =>
    simp only [buildAttributes, List.map_cons, buildClauses, ih]
    rfl

theorem buildUniforms_eq {pool : Nat} {scope : Scope} (entries : List (String × Kind)) :
    buildUniforms pool scope entries =
      buildClauses pool scope (entries.map fun e => .uniform e.1 e.2) := by
  induction entries generalizing scope with
  | nil => rfl
  | cons e entries ih =>
    simp only [buildUniforms, List.map_cons, buildClauses, ih]
    rfl

theorem buildDefinitions_eq {pool : Nat} {scope : Scope} (definitions : List Definition) :
    buildDefinitions pool scope definitions = buildClauses pool scope (definitions.map .definition) := by
  induction definitions generalizing scope with
  | nil => rfl
  | cons d definitions ih =>
    simp only [buildDefinitions, List.map_cons, buildClauses, ih]
    rfl

/-- The three sections of a document are built as one list of clauses. -/
theorem buildScope_eq (doc : Document) (pool : Nat) :
    doc.buildScope pool = buildClauses pool .empty doc.clauses := by
  simp only [buildScope, clauses, buildClauses_append, buildAttributes_eq, buildUniforms_eq,
    buildDefinitions_eq]

end Document

/-! ### Glossaries -/

/-- The tree that expression text spells. -/
def sourceTree? (names : String → Option Tree) (source : String) : Option Tree :=
  match parse source with
  | .ok e => e.tree? names
  | .error _ => none

/-- The tree of a clause whose text uses the names `names`. -/
def Clause.tree? (names : String → Option Tree) : Clause → Option Tree
  | .attribute name kind => if kind.canBeAttribute then some (.node kind (.attribute name)) else none
  | .uniform name kind => some (.node kind (.uniform name))
  | .definition d =>
    (sourceTree? names d.source).bind fun t => if d.varying then t.varying? else some t

/-- Names with the trees that they stand for, the last one first. -/
abbrev Glossary := List (String × Tree)

/-- The tree of a name. -/
def Glossary.tree? (g : Glossary) (name : String) : Option Tree := g.lookup name

/-- `Glosses g clauses g'`: the clauses, in order, lead from the glossary `g` to `g'`.  Each name may be
declared and is new, and each text uses the names before it. -/
inductive Glosses : Glossary → List Clause → Glossary → Prop where
  | done (g : Glossary) : Glosses g [] g
  | define {g g' : Glossary} {c : Clause} {more : List Clause} {t : Tree}
      (declarable : checkIdentifier c.name = .ok ()) (new : g.tree? c.name = none)
      (tree : c.tree? g.tree? = some t) (rest : Glosses ((c.name, t) :: g) more g') :
      Glosses g (c :: more) g'

/-- The meaning of a document: a glossary, and the trees of the two outputs. -/
structure Document.Means (doc : Document) (g : Glossary) (position colour : Tree) : Prop where
  glossary : Glosses [] doc.clauses g
  kinds : position.kind = .vec4 ∧ colour.kind = .vec4
  position : sourceTree? g.tree? doc.position = some position
  colour : sourceTree? g.tree? doc.colour = some colour

/-! ### More names, the same trees -/

/-- Every name keeps its tree. -/
def KeepTrees (names names' : String → Option Tree) : Prop :=
  ∀ name t, names name = some t → names' name = some t

section Mono

variable {names names' : String → Option Tree}

mutual

/-- An expression spells the same tree if there are more names. -/
theorem Expression.tree?_mono (kept : KeepTrees names names') (e : Expression) {t : Tree}
    (h : e.tree? names = some t) : e.tree? names' = some t := by
  match e with
  | .numeral value =>
    rw [Expression.tree?] at h ⊢
    exact h
  | .name text offset =>
    rw [Expression.tree?] at h ⊢
    exact kept text t h
  | .negate operand offset =>
    by_cases number : ∃ value, operand = .numeral value
    · obtain ⟨value, rfl⟩ := number
      rw [Expression.tree?] at h ⊢
      exact h
    · have other := not_exists.1 number
      rw [Expression.tree?_negate other] at h ⊢
      obtain ⟨u, hu, top⟩ := Option.bind_eq_some_iff.1 h
      rw [operand.tree?_mono kept hu, Option.bind_some, top]
  | .binary op left right offset =>
    rw [Expression.tree?] at h ⊢
    obtain ⟨l, hl, rest⟩ := Option.bind_eq_some_iff.1 h
    obtain ⟨r, hr, top⟩ := Option.bind_eq_some_iff.1 rest
    simp only [left.tree?_mono kept hl, right.tree?_mono kept hr, bind, Option.bind_some, top]
  | .call callee args offset =>
    rw [Expression.tree?] at h ⊢
    obtain ⟨ts, hts, top⟩ := Option.bind_eq_some_iff.1 h
    simp only [Expression.treeAll?_mono kept args hts, bind, Option.bind_some, top]

theorem Expression.treeAll?_mono (kept : KeepTrees names names') (es : List Expression) {ts : List Tree}
    (h : Expression.treeAll? names es = some ts) : Expression.treeAll? names' es = some ts := by
  match es with
  | [] =>
    rw [Expression.treeAll?] at h ⊢
    exact h
  | e :: es =>
    rw [Expression.treeAll?] at h ⊢
    obtain ⟨t, ht, rest⟩ := Option.bind_eq_some_iff.1 h
    obtain ⟨us, hus, top⟩ := Option.bind_eq_some_iff.1 rest
    simp only [e.tree?_mono kept ht, Expression.treeAll?_mono kept es hus, bind, Option.bind_some, top]

end

theorem sourceTree?_mono {source : String} {t : Tree} (kept : KeepTrees names names')
    (h : sourceTree? names source = some t) : sourceTree? names' source = some t := by
  unfold sourceTree? at h ⊢
  split at h
  · next e _ => exact e.tree?_mono kept h
  · cases h

theorem Clause.tree?_mono {c : Clause} {t : Tree} (kept : KeepTrees names names')
    (h : c.tree? names = some t) : c.tree? names' = some t := by
  match c with
  | .attribute name kind => exact h
  | .uniform name kind => exact h
  | .definition d =>
    obtain ⟨u, hu, top⟩ := Option.bind_eq_some_iff.1 h
    rw [tree?, sourceTree?_mono kept hu, Option.bind_some, top]

end Mono

/-! ### Finished glossaries -/

theorem Glossary.keepTrees_cons {g : Glossary} {name : String} (new : g.tree? name = none) (t : Tree) :
    KeepTrees g.tree? (tree? ((name, t) :: g)) := by
  intro other u found
  have apart : other ≠ name := by
    rintro rfl
    rw [new] at found
    cases found
  rw [tree?, List.lookup_cons, beq_false_of_ne apart]
  exact found

namespace Glosses

variable {g g' : Glossary} {clauses : List Clause}

theorem keepTrees (h : Glosses g clauses g') : KeepTrees g.tree? g'.tree? := by
  induction h with
  | done g => exact fun _ _ found => found
  | define _ new _ _ ih =>
    exact fun name t found => ih name t (Glossary.keepTrees_cons new _ name t found)

/-- **A finished glossary satisfies each of its clauses**, with all names in place of those before it. -/
theorem holds (h : Glosses g clauses g') :
    ∀ c ∈ clauses, checkIdentifier c.name = .ok () ∧
      ∃ t, c.tree? g'.tree? = some t ∧ g'.tree? c.name = some t := by
  induction h with
  | done g => simp
  | @define g g' c more t declarable new tree rest ih =>
    rw [List.forall_mem_cons]
    refine ⟨⟨declarable, t, ?_, ?_⟩, ih⟩
    · exact Clause.tree?_mono rest.keepTrees (Clause.tree?_mono (Glossary.keepTrees_cons new t) tree)
    · exact rest.keepTrees _ _ List.lookup_cons_self

/-- Names that satisfy all clauses give each name the tree of the glossary: by induction along the clauses,
each text uses names that agree already. -/
theorem keepTrees_of_holds {names : String → Option Tree} (h : Glosses g clauses g')
    (kept : KeepTrees g.tree? names)
    (all : ∀ c ∈ clauses, ∃ t, c.tree? names = some t ∧ names c.name = some t) :
    KeepTrees g'.tree? names := by
  induction h with
  | done g => exact kept
  | @define g g' c more t declarable new tree rest ih =>
    rw [List.forall_mem_cons] at all
    obtain ⟨u, hu, found⟩ := all.1
    obtain rfl : t = u := Option.some.inj ((Clause.tree?_mono kept tree).symm.trans hu)
    refine ih (fun name v known => ?_) all.2
    rw [Glossary.tree?, List.lookup_cons] at known
    split at known
    · next same =>
      cases known
      rw [eq_of_beq same, found]
    · exact kept name v known

/-- The names of the clauses are new and different from each other. -/
theorem names_nodup (h : Glosses g clauses g') :
    (clauses.map Clause.name).Nodup ∧ ∀ c ∈ clauses, g.tree? c.name = none := by
  induction h with
  | done g => simp
  | @define g g' c more t declarable new tree rest ih =>
    obtain ⟨distinct, fresh⟩ := ih
    have later : ∀ d ∈ more, d.name ≠ c.name ∧ g.tree? d.name = none := by
      intro d hd
      have unknown := fresh d hd
      rw [Glossary.tree?, List.lookup_cons] at unknown
      split at unknown
      · cases unknown
      · next apart => exact ⟨ne_of_beq_false apart, unknown⟩
    rw [List.map_cons, List.nodup_cons, List.forall_mem_cons]
    refine ⟨⟨fun mem => ?_, distinct⟩, new, fun d hd => (later d hd).2⟩
    obtain ⟨d, hd, same⟩ := List.mem_map.1 mem
    exact (later d hd).1 same

end Glosses

/-- More clauses, in any order, give each name the same tree. -/
theorem Glosses.keepTrees_of_subset {clauses clauses' : List Clause} {g g' : Glossary}
    (h : Glosses [] clauses g) (h' : Glosses [] clauses' g') (sub : ∀ c ∈ clauses, c ∈ clauses') :
    KeepTrees g.tree? g'.tree? :=
  h.keepTrees_of_holds (fun _ _ found => by cases found) fun c mem => (h'.holds c (sub c mem)).2

/-- The outputs of two documents with the same texts of outputs are the same trees, if one has all clauses
of the other. -/
theorem Document.Means.trees_eq {doc doc' : Document} {g g' : Glossary} {p p' c c' : Tree}
    (h : doc.Means g p c) (h' : doc'.Means g' p' c') (sub : ∀ c ∈ doc.clauses, c ∈ doc'.clauses)
    (outputs : doc'.position = doc.position ∧ doc'.colour = doc.colour) : p = p' ∧ c = c' := by
  have kept := h.glossary.keepTrees_of_subset h'.glossary sub
  have position := sourceTree?_mono kept h.position
  have colour := sourceTree?_mono kept h.colour
  rw [← outputs.1, h'.position] at position
  rw [← outputs.2, h'.colour] at colour
  cases position
  cases colour
  exact ⟨rfl, rfl⟩

/-! ### Building follows the meaning -/

namespace Build

variable {w : Workspace} {pool : Nat} {scope : Scope} {g : Glossary}

theorem stands_holds {h : Handle} {t : Tree} (stands : w.Stands pool h t) (hpool : pool < w.pools.size) :
    w.Holds h := by
  obtain ⟨home, tree, kind⟩ := stands
  cases t with
  | node k operation =>
    obtain ⟨e, he, -, -, rfl⟩ := Pool.tree?_eq_some_iff.1 tree
    subst home
    exact ⟨hpool, e, he, kind⟩

/-- A scope of handles of one pool that stand for the trees of a glossary. -/
def Glossed (w : Workspace) (pool : Nat) (scope : Scope) (g : Glossary) : Prop :=
  List.Forall₂ (fun entry gloss => entry.1 = gloss.1 ∧ w.Stands pool entry.2 gloss.2) scope.names g

theorem Glossed.grow {w' : Workspace} (h : Glossed w pool scope g) (grown : w.Grows w') :
    Glossed w' pool scope g :=
  h.imp fun _ _ both => ⟨both.1, both.2.grow grown⟩

theorem Glossed.held (h : Glossed w pool scope g) (hpool : pool < w.pools.size) : ScopeHeld w scope := by
  intro entry mem
  obtain ⟨gloss, -, -, stands⟩ := exists_of_forall₂_left h mem
  exact stands_holds stands hpool

/-- The scope and the glossary know the same names. -/
theorem Glossed.rel (h : Glossed w pool scope g) (name : String) :
    Option.Rel (w.Stands pool) (scope.get? name) (g.tree? name) := by
  rw [Scope.get?, Glossary.tree?]
  unfold Glossed at h
  generalize scope.names = entries at h
  induction h with
  | nil => exact .none
  | @cons entry gloss entries g both _ ih =>
    obtain ⟨text, handle⟩ := entry
    obtain ⟨text', tree⟩ := gloss
    obtain ⟨rfl, stands⟩ : text = text' ∧ w.Stands pool handle tree := both
    rw [List.lookup_cons, List.lookup_cons]
    split
    · exact .some stands
    · exact ih

theorem Glossed.tree?_eq (h : Glossed w pool scope g) : scope.tree? w = g.tree? := by
  funext name
  have rel := h.rel name
  rw [Scope.tree?]
  cases found : scope.get? name with
  | none =>
    rw [found] at rel
    exact (eq_none_of_rel rel).symm
  | some handle =>
    rw [found] at rel
    obtain ⟨t, ht, stands⟩ := exists_of_rel rel
    rw [ht, Option.bind_some, stands.home, stands.tree]

/-- The scope and the glossary miss the same names. -/
theorem Glossed.get?_eq_none_iff (h : Glossed w pool scope g) {name : String} :
    scope.get? name = none ↔ g.tree? name = none := by
  have rel := h.rel name
  cases found : scope.get? name with
  | none =>
    rw [found] at rel
    simp [eq_none_of_rel rel]
  | some handle =>
    rw [found] at rel
    obtain ⟨t, ht, -⟩ := exists_of_rel rel
    simp [ht]

/-- A name is defined if it is new. -/
theorem define_eq_ok_iff {name : String} {h : Handle} {scope' : Scope} :
    scope.define name h = .ok scope' ↔ scope.get? name = none ∧ scope' = ⟨(name, h) :: scope.names⟩ := by
  rw [Scope.define]
  cases scope.get? name with
  | none => exact ⟨fun defined => by cases defined; exact ⟨rfl, rfl⟩, fun ⟨_, same⟩ => by rw [same]; rfl⟩
  | some handle => exact ⟨nofun, nofun⟩

theorem outcome_ofExcept {α : Type} {result : Except Failure α} (wf : w.WellFormed) :
    Outcome (ofExcept result) w (fun a w' => w' = w ∧ result = .ok a) fun _ => ∀ a, result ≠ .ok a := by
  cases result with
  | ok a => exact ⟨wf.grows_refl, rfl, rfl⟩
  | error f => exact fun a => nofun

/-- A text is built exactly if it spells a tree. -/
theorem outcome_compile (wf : w.WellFormed) (hpool : pool < w.pools.size) (glossed : Glossed w pool scope g)
    (source : String) :
    Outcome (compile pool source scope) w
      (fun h w' => ∃ t, sourceTree? g.tree? source = some t ∧ w'.Stands pool h t)
      fun _ => sourceTree? g.tree? source = none := by
  have held := glossed.held hpool
  rw [compile, sourceTree?, ← glossed.tree?_eq]
  cases parse source with
  | ok e =>
    refine (outcome_lower wf hpool held e wf.grows_refl).mono_bad fun f fault => ?_
    -- the part at fault spells no tree
    obtain ⟨before, part, after, offset, split, -, faults, -⟩ := fault
    cases spelled : e.tree? (scope.tree? w) with
    | none => exact spelled
    | some t =>
      obtain ⟨u, hu⟩ := e.tree?_parts spelled part (by rw [split]; simp)
      rw [faults.tree?_eq_none (held.map_kind wf)] at hu
      cases hu
  | error e => exact outcome_fail rfl

theorem outcome_clause (wf : w.WellFormed) (hpool : pool < w.pools.size) (glossed : Glossed w pool scope g)
    (c : Clause) :
    Outcome (c.build pool scope) w (fun h w' => ∃ t, c.tree? g.tree? = some t ∧ w'.Stands pool h t)
      fun _ => c.tree? g.tree? = none := by
  match c with
  | .attribute name kind =>
    refine Outcome.adapt ?_
    rw [Clause.tree?]
    by_cases accepted : kind.canBeAttribute = true
    · rw [if_pos accepted]
      have node : Outcome (addAttribute pool name kind) w
          (fun h w' => w'.Stands pool h (.node kind (.attribute name)))
          fun _ => some (Tree.node kind (.attribute name)) = none :=
        outcome_ofNode (m := .attribute name) wf hpool (by simp [Node.children]) accepted
      exact node.mono_good fun h w' _ stands => ⟨_, rfl, stands⟩
    · rw [addAttribute, if_neg accepted, if_neg accepted]
      exact outcome_fail rfl
  | .uniform name kind =>
    have node : Outcome (addUniform pool name kind) w
        (fun h w' => w'.Stands pool h (.node kind (.uniform name)))
        fun _ => some (Tree.node kind (.uniform name)) = none :=
      outcome_ofNode (m := .uniform name) wf hpool (by simp [Node.children]) trivial
    exact node.mono_good fun h w' _ stands => ⟨_, rfl, stands⟩
  | .definition d =>
    refine Outcome.adapt ?_
    rw [Document.buildDefinition, Clause.tree?]
    refine ((outcome_compile wf hpool glossed d.source).mono_bad fun f none => by rw [none]; rfl).bind ?_
    rintro h w' grown ⟨t, ht, stands⟩
    rw [ht, Option.bind_some]
    split
    · refine (outcome_varying grown.wellFormed (grown.size_eq ▸ hpool) stands).mono_bad ?_
      intro f refused
      rw [Tree.varying?, refused.2]
      rfl
    · exact outcome_pure grown.wellFormed ⟨t, rfl, stands⟩

/-- **Clauses are built exactly if they can be glossed.** -/
theorem outcome_clauses (wf : w.WellFormed) (hpool : pool < w.pools.size) (glossed : Glossed w pool scope g)
    (clauses : List Clause) :
    Outcome (Document.buildClauses pool scope clauses) w
      (fun scope' w' => ∃ g', Glosses g clauses g' ∧ Glossed w' pool scope' g')
      fun _ => ¬∃ g', Glosses g clauses g' := by
  induction clauses generalizing w scope g with
  | nil => exact outcome_pure wf ⟨g, .done g, glossed⟩
  | cons c more ih =>
    rw [Document.buildClauses]
    refine ((outcome_ofExcept wf).mono_bad fun f refused => ?_).bind ?_
    · rintro ⟨g', glosses⟩
      cases glosses with
      | define declarable _ _ _ => exact refused _ declarable
    rintro _ _ - ⟨rfl, declarable⟩
    refine ((outcome_clause wf hpool glossed c).mono_bad fun f none => ?_).bind ?_
    · rintro ⟨g', glosses⟩
      cases glosses with
      | define _ _ tree _ =>
        rw [none] at tree
        cases tree
    rintro h w₁ g₁ ⟨t, ht, stands⟩
    have glossed₁ := glossed.grow g₁
    refine ((outcome_ofExcept g₁.wellFormed).mono_bad fun f refused => ?_).bind ?_
    · rintro ⟨g', glosses⟩
      cases glosses with
      | define _ new _ _ => exact refused _ (define_eq_ok_iff.2 ⟨glossed₁.get?_eq_none_iff.2 new, rfl⟩)
    rintro scope' w₂ - ⟨rfl, defined⟩
    obtain ⟨unknown, rfl⟩ := define_eq_ok_iff.1 defined
    have glossed₂ : Glossed w₂ pool ⟨(c.name, h) :: scope.names⟩ ((c.name, t) :: g) :=
      .cons ⟨rfl, stands⟩ glossed₁
    refine (ih g₁.wellFormed (g₁.size_eq ▸ hpool) glossed₂).mono ?_ ?_
    · rintro scope'' w' - ⟨g', glosses, glossed'⟩
      exact ⟨g', .define declarable (glossed₁.get?_eq_none_iff.1 unknown) ht glosses, glossed'⟩
    · rintro f none ⟨g', glosses⟩
      cases glosses with
      | define _ _ tree rest =>
        cases ht.symm.trans tree
        exact none ⟨g', rest⟩

/-- **A document is built exactly if it has a meaning**, in whatever pool, and its outputs stand for the
trees of the meaning. -/
theorem outcome_document (doc : Document) (wf : w.WellFormed) (hpool : pool < w.pools.size) :
    Outcome (doc.build pool) w
      (fun program w' => program.pool = pool ∧ ∃ g position colour, doc.Means g position colour ∧
        (w'.pool pool).tree? program.position = some position ∧
        (w'.pool pool).tree? program.colour = some colour)
      fun _ => ¬∃ g position colour, doc.Means g position colour := by
  have empty : Glossed w pool .empty [] := .nil
  have meaningOf : ∀ {g}, Glosses [] doc.clauses g → ∀ {g' p c}, doc.Means g' p c →
      sourceTree? g.tree? doc.position = some p ∧ sourceTree? g.tree? doc.colour = some c := by
    intro g glosses g' p c means
    have kept := means.glossary.keepTrees_of_subset glosses fun _ mem => mem
    exact ⟨sourceTree?_mono kept means.position, sourceTree?_mono kept means.colour⟩
  rw [Document.build, Document.buildScope_eq]
  refine ((outcome_clauses wf hpool empty doc.clauses).mono_bad fun f none => ?_).bind ?_
  · rintro ⟨g, p, c, means⟩
    exact none ⟨g, means.glossary⟩
  rintro scope w₁ g₁ ⟨g, glosses, glossed₁⟩
  have hpool₁ : pool < w₁.pools.size := g₁.size_eq ▸ hpool
  refine (((outcome_compile g₁.wellFormed hpool₁ glossed₁ doc.position).mono_bad
    fun f none => ?_).adapt).bind ?_
  · rintro ⟨g', p, c, means⟩
    rw [(meaningOf glosses means).1] at none
    cases none
  rintro position w₂ g₂ ⟨p, hp, standsP⟩
  have hpool₂ : pool < w₂.pools.size := g₂.size_eq ▸ hpool₁
  refine (((outcome_compile g₂.wellFormed hpool₂ (glossed₁.grow g₂) doc.colour).mono_bad
    fun f none => ?_).adapt).bind ?_
  · rintro ⟨g', p, c, means⟩
    rw [(meaningOf glosses means).2] at none
    cases none
  rintro colour w₃ g₃ ⟨c, hc, standsC⟩
  have standsP := standsP.grow g₃
  have kinds : ∀ {g' p' c'}, doc.Means g' p' c' → position.kind = .vec4 ∧ colour.kind = .vec4 := by
    intro g' p' c' means
    obtain ⟨sameP, sameC⟩ := meaningOf glosses means
    cases hp.symm.trans sameP
    cases hc.symm.trans sameC
    exact ⟨standsP.kind ▸ means.kinds.1, standsC.kind ▸ means.kinds.2⟩
  unfold Program.ofHandles
  split
  · next other => exact outcome_fail fun ⟨g', p', c', means⟩ => other (kinds means).1
  next kindP =>
  split
  · next other => exact outcome_fail fun ⟨g', p', c', means⟩ => other (kinds means).2
  next kindC =>
  have home : colour.pool = position.pool := standsC.home.trans standsP.home.symm
  rw [Program.pair, adopt_home home, pure_bind]
  have vec4 : p.kind = .vec4 ∧ c.kind = .vec4 :=
    ⟨standsP.kind.trans (not_not.1 kindP), standsC.kind.trans (not_not.1 kindC)⟩
  exact outcome_pure g₃.wellFormed
    ⟨standsP.home, g, p, c, ⟨glosses, vec4, hp, hc⟩, standsP.tree, standsC.tree⟩

end Build

end ShaderDag
