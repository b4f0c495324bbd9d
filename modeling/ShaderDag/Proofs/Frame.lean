import ShaderDag.Proofs.Agreement
import ShaderDag.Proofs.Lowering

/-!
# Pools only gain entries

Handles are numbers, and they stay in use while pools grow under them.  An operation works on one pool: it
adds entries behind those that are there and leaves the other pools alone, also if it fails halfway.  So
whatever was known of a node stays true, however many operations come after.

* `Operation` — the operations of a caller, each with the pool that it works on and the handles that it is
  given;
* `Build.Confined` — an action that changes at most one pool, with the rules for composed actions;
* `Pool.Continues` — what a later state of a pool keeps;
* `Operation.confined`, `Operation.grows` — what one operation does to the pools;
* `Session.Reachable.append_only` — no operation on a reachable session, and no run of them, takes
  anything back.
-/

namespace ShaderDag

/-! ### Later states of a pool -/

namespace Pool

variable {p q : Pool}

/-- A later state of a pool: the old entries come first, and every question about an old node has its old
answer. -/
structure Continues (p q : Pool) : Prop where
  entries : p.entries.toList <+: q.entries.toList
  kinds : ∀ id, id < p.size → q.kind id = p.kind id
  nodes : ∀ id, id < p.size → q.node? id = p.node? id
  children : ∀ id, id < p.size → q.children id = p.children id
  digests : ∀ id, id < p.size → q.digest id = p.digest id
  found : ∀ kind node id, p.find? kind node = some id → q.find? kind node = some id

theorem Extends.isPrefix (h : p.Extends q) : p.entries.toList <+: q.entries.toList := by
  rw [List.prefix_iff_getElem?]
  intro id hid
  have old : p.entry? id = some p.entries.toList[id] :=
    Array.getElem?_toList.symm.trans (List.getElem?_eq_getElem hid)
  exact Array.getElem?_toList.trans (h id _ old)

theorem Extends.node?_eq {id : Nat} (h : p.Extends q) (hid : id < p.size) : q.node? id = p.node? id := by
  obtain ⟨e, he⟩ := exists_entry hid
  rw [node?, node?, h id e he, he]

theorem Extends.continues (h : p.Extends q) (wf : q.WellFormed) : p.Continues q where
  entries := h.isPrefix
  kinds := fun _ hid => h.kind_eq hid
  nodes := fun _ hid => h.node?_eq hid
  children := fun id hid => by rw [children, children, h.node?_eq hid]
  digests := fun _ hid => h.digest_eq hid
  found := by
    intro kind node id hit
    obtain ⟨e, he, hk, hn⟩ := entry?_of_find? hit
    exact wf.find?_eq_some_iff.2 ⟨e, h id e he, hk, hn⟩

end Pool

/-! ### Actions on one pool -/

namespace Workspace

variable {w w' w'' : Workspace} {pool : Nat}

/-- As many pools, of which at most one differs. -/
structure SameBeside (w : Workspace) (pool : Nat) (w' : Workspace) : Prop where
  size_eq : w'.pools.size = w.pools.size
  others : ∀ i, i ≠ pool → w'.pool i = w.pool i

theorem SameBeside.refl (w : Workspace) (pool : Nat) : w.SameBeside pool w := ⟨rfl, fun _ _ => rfl⟩

theorem SameBeside.trans (h : w.SameBeside pool w') (h' : w'.SameBeside pool w'') :
    w.SameBeside pool w'' :=
  ⟨h'.size_eq.trans h.size_eq, fun i hi => (h'.others i hi).trans (h.others i hi)⟩

theorem sameBeside_setPool (w : Workspace) (pool : Nat) (p : Pool) :
    w.SameBeside pool (w.setPool pool p) := by
  refine ⟨by simp [setPool], ?_⟩
  intro i hi
  simp only [Workspace.pool, setPool, Array.getD_eq_getD_getElem?, Array.getElem?_setIfInBounds,
    if_neg (Ne.symm hi)]

end Workspace

namespace Build

variable {pool : Nat} {α β : Type} {P : α → Prop} {Q : β → Prop}

/-- The pools that an action leaves behind, whether it fails or not. -/
def after {σ : Type} (action : BuildOn σ α) (s : σ) : σ :=
  match action s with
  | .ok _ s' => s'
  | .error _ s' => s'

/-- An action changes at most one pool, whether it fails or not, and its result satisfies `post`. -/
def Confined (pool : Nat) (action : Build α) (post : α → Prop) : Prop :=
  ∀ w, match action w with
    | .ok a w' => w.SameBeside pool w' ∧ post a
    | .error _ w' => w.SameBeside pool w'

theorem Confined.after {action : Build α} (h : Confined pool action P) (w : Workspace) :
    w.SameBeside pool (Build.after action w) := by
  have step := h w
  unfold Build.after
  cases run : action w with
  | ok a w' =>
    rw [run] at step
    exact step.1
  | error f w' =>
    rw [run] at step
    exact step

theorem confined_pure {a : α} (h : P a) : Confined pool (pure a) P := fun w => ⟨.refl w pool, h⟩

theorem confined_fail (cause : Cause) : Confined pool (fail cause) P := fun w => .refl w pool

theorem confined_ofExcept (result : Except Failure α) : Confined pool (ofExcept result) fun _ => True := by
  cases result with
  | ok a => exact confined_pure trivial
  | error f => exact fun w => .refl w pool

theorem Confined.bind {action : Build α} {next : α → Build β} (h : Confined pool action P)
    (rest : ∀ a, P a → Confined pool (next a) Q) : Confined pool (action >>= next) Q := by
  intro w
  have first := h w
  simp only [Bind.bind, EStateM.bind]
  cases run : action w with
  | ok a w₁ =>
    rw [run] at first
    have second := rest a first.2 w₁
    dsimp only
    cases run' : next a w₁ with
    | ok b w₂ =>
      rw [run'] at second
      exact ⟨first.1.trans second.1, second.2⟩
    | error f w₂ =>
      rw [run'] at second
      exact first.1.trans second
  | error f w₁ =>
    rw [run] at first
    exact first

theorem Confined.adaptExcept {action : Build α} (change : Failure → Failure)
    (h : Confined pool action P) : Confined pool (EStateM.adaptExcept change action) P := by
  intro w
  have step := h w
  simp only [EStateM.adaptExcept]
  cases run : action w with
  | ok a w' =>
    rw [run] at step
    exact step
  | error f w' =>
    rw [run] at step
    exact step

/-- The constructions work on the pool of the handle that they give out. -/
abbrev ConfinedAt (pool : Nat) (action : Build Handle) : Prop := Confined pool action fun h => h.pool = pool

theorem confined_intern (pool : Nat) (kind : Kind) (node : Node Nat) :
    ConfinedAt pool (intern pool kind node) := by
  intro w
  rw [intern_run]
  exact ⟨w.sameBeside_setPool pool _, rfl⟩

theorem confined_adopt (pool : Nat) (h : Handle) : Confined pool (adopt pool h) fun _ => True := by
  intro w
  by_cases home : h.pool = pool
  · subst home
    rw [adopt_run_home]
    exact ⟨.refl w h.pool, trivial⟩
  · rw [adopt_run_foreign w home]
    exact ⟨w.sameBeside_setPool pool _, trivial⟩

theorem confined_adoptAll (pool : Nat) (args : List Handle) :
    Confined pool (args.mapM (adopt pool)) fun _ => True := by
  induction args with
  | nil => exact confined_pure trivial
  | cons h args ih =>
    rw [List.mapM_cons]
    refine (confined_adopt pool h).bind fun _ _ => ?_
    exact ih.bind fun _ _ => confined_pure trivial

/-! ### Constructions -/

theorem confined_addAttribute (pool : Nat) (name : String) (kind : Kind) :
    ConfinedAt pool (addAttribute pool name kind) := by
  unfold addAttribute
  split
  · exact confined_intern pool kind _
  · exact confined_fail _

theorem confined_binary (op : Operator) (lhs rhs : Handle) : ConfinedAt lhs.pool (binary op lhs rhs) := by
  unfold binary
  split
  · exact (confined_adopt lhs.pool rhs).bind fun _ _ => confined_intern lhs.pool _ _
  · exact confined_fail _

theorem confined_varying (inner : Handle) : ConfinedAt inner.pool (varying inner) := by
  unfold varying
  split
  · exact confined_intern inner.pool _ _
  · exact confined_fail _

theorem confined_construct (pool : Nat) (kind : Kind) (args : List Handle) :
    ConfinedAt pool (construct pool kind args) := by
  unfold construct
  dsimp only
  split
  · exact (confined_adoptAll pool args).bind fun _ _ => confined_intern pool kind _
  · exact confined_fail _

theorem confined_call (pool : Nat) (name : String) (args : List Handle) :
    ConfinedAt pool (call pool name args) := by
  unfold call
  split
  · exact confined_fail _
  · dsimp only
    split
    · exact (confined_adoptAll pool args).bind fun _ _ => confined_intern pool _ _
    · exact confined_fail _

/-! ### Text and documents -/

theorem confined_negate {operand : Handle} (home : operand.pool = pool) :
    ConfinedAt pool (negate pool operand) := by
  subst home
  unfold negate
  split
  · exact confined_fail _
  · exact (confined_intern operand.pool .float _).bind fun _ _ => confined_binary .mul operand _

theorem confined_apply {args : List Handle} (callee : String) (home : ∀ h ∈ args, h.pool = pool) :
    ConfinedAt pool (apply pool callee args) := by
  unfold apply
  split
  · split
    · next inner => exact home inner List.mem_cons_self ▸ confined_varying inner
    · exact confined_fail _
  · split
    · exact confined_construct pool _ args
    · exact confined_call pool callee args

mutual

/-- Each part of an expression gives a handle of the pool, so the part around it works there too. -/
theorem confined_lower (pool : Nat) (scope : Scope) (e : Expression) :
    ConfinedAt pool (lower pool scope e) := by
  match e with
  | .numeral value => exact confined_intern pool .float _
  | .name text offset =>
    rw [lower]
    split
    · next h _ => exact (confined_adopt pool h).bind fun _ _ => confined_pure rfl
    · exact (confined_fail _).adaptExcept _
  | .negate operand offset =>
    by_cases number : ∃ value, operand = .numeral value
    · obtain ⟨value, rfl⟩ := number
      exact confined_intern pool .float _
    · rw [lower]
      · exact (confined_lower pool scope operand).bind fun _ home => (confined_negate home).adaptExcept _
      · exact fun value same => number ⟨value, same⟩
  | .binary op left right offset =>
    rw [lower]
    refine (confined_lower pool scope left).bind fun l home => ?_
    refine (confined_lower pool scope right).bind fun r _ => ?_
    subst home
    exact (confined_binary op l r).adaptExcept _
  | .call callee args offset =>
    rw [lower]
    exact (confined_lowerAll pool scope args).bind fun _ home => (confined_apply callee home).adaptExcept _

theorem confined_lowerAll (pool : Nat) (scope : Scope) (es : List Expression) :
    Confined pool (lowerAll pool scope es) fun hs => ∀ h ∈ hs, h.pool = pool := by
  match es with
  | [] => exact confined_pure (by simp)
  | e :: es =>
    rw [lowerAll]
    refine (confined_lower pool scope e).bind fun h home => ?_
    refine (confined_lowerAll pool scope es).bind fun hs homes => confined_pure ?_
    exact List.forall_mem_cons.2 ⟨home, homes⟩

end

theorem confined_compile (pool : Nat) (source : String) (scope : Scope) :
    ConfinedAt pool (compile pool source scope) := by
  unfold compile
  split
  · next e _ => exact confined_lower pool scope e
  · exact confined_fail _

/-- One declaration of a document, followed by the rest. -/
theorem confined_declaration {scope : Scope} {name : String} {make : Build Handle}
    {next : Scope → Build Scope} (makes : ConfinedAt pool make)
    (rest : ∀ scope', Confined pool (next scope') fun _ => True) :
    Confined pool (do
      ofExcept (checkIdentifier name)
      let h ← make
      let scope ← ofExcept (scope.define name h)
      next scope) fun _ => True :=
  (confined_ofExcept _).bind fun _ _ => makes.bind fun _ _ =>
    (confined_ofExcept _).bind fun scope' _ => rest scope'

theorem confined_buildAttributes (entries : List (String × Kind)) :
    ∀ scope, Confined pool (Document.buildAttributes pool scope entries) fun _ => True := by
  induction entries with
  | nil => exact fun _ => confined_pure trivial
  | cons entry entries ih =>
    exact fun _ => confined_declaration ((confined_addAttribute pool _ _).adaptExcept _) ih

theorem confined_buildUniforms (entries : List (String × Kind)) :
    ∀ scope, Confined pool (Document.buildUniforms pool scope entries) fun _ => True := by
  induction entries with
  | nil => exact fun _ => confined_pure trivial
  | cons entry entries ih => exact fun _ => confined_declaration (confined_intern pool _ _) ih

theorem confined_buildDefinition (scope : Scope) (d : Definition) :
    ConfinedAt pool (Document.buildDefinition pool scope d) := by
  refine (confined_compile pool d.source scope).bind fun h home => ?_
  split
  · exact home ▸ confined_varying h
  · exact confined_pure home

theorem confined_buildDefinitions (definitions : List Definition) :
    ∀ scope, Confined pool (Document.buildDefinitions pool scope definitions) fun _ => True := by
  induction definitions with
  | nil => exact fun _ => confined_pure trivial
  | cons d definitions ih =>
    exact fun scope => confined_declaration ((confined_buildDefinition scope d).adaptExcept _) ih

theorem confined_pair (position colour : Handle) :
    Confined position.pool (Program.pair position colour) fun _ => True :=
  (confined_adopt position.pool colour).bind fun _ _ => confined_pure trivial

theorem confined_ofHandles (position colour : Handle) :
    Confined position.pool (Program.ofHandles position colour) fun _ => True := by
  unfold Program.ofHandles
  split
  · exact confined_fail _
  · split
    · exact confined_fail _
    · exact confined_pair position colour

theorem confined_document (pool : Nat) (doc : Document) :
    Confined pool (doc.build pool) fun _ => True := by
  have names : Confined pool (doc.buildScope pool) fun _ => True :=
    (confined_buildAttributes _ _).bind fun _ _ => (confined_buildUniforms _ _).bind fun _ _ =>
      confined_buildDefinitions _ _
  refine names.bind fun scope _ => ?_
  refine ((confined_compile pool doc.position scope).adaptExcept _).bind fun position home => ?_
  refine ((confined_compile pool doc.colour scope).adaptExcept _).bind fun colour _ => ?_
  exact home ▸ confined_ofHandles position colour

end Build

/-! ### Operations -/

namespace Request

/-- The pool that gets the new node. -/
def receiver : Request → Nat
  | .addAttribute pool _ _ | .addUniform pool _ _ | .addConstant pool _ | .construct pool _ _ => pool
  | .binary _ lhs _ => lhs.pool
  | .varying inner => inner.pool
  | .call pool _ args => home pool args

/-- The handles that a construction is given. -/
def operands : Request → List Handle
  | .addAttribute .. | .addUniform .. | .addConstant .. => []
  | .binary _ lhs rhs => [lhs, rhs]
  | .varying inner => [inner]
  | .construct _ _ args | .call _ _ args => args

theorem confined (r : Request) : Build.ConfinedAt r.receiver r.checked := by
  cases r with
  | addAttribute pool name kind => exact Build.confined_addAttribute pool name kind
  | addUniform pool name kind => exact Build.confined_intern pool kind _
  | addConstant pool value => exact Build.confined_intern pool .float _
  | binary op lhs rhs => exact Build.confined_binary op lhs rhs
  | varying inner => exact Build.confined_varying inner
  | construct pool kind args => exact Build.confined_construct pool kind args
  | call pool name args => exact Build.confined_call (home pool args) name args

theorem constructs {w : Workspace} (r : Request) (wf : w.WellFormed) (here : r.receiver < w.pools.size)
    (held : ∀ h ∈ r.operands, w.Holds h) : Build.Constructs r.checked w := by
  cases r with
  | addAttribute pool name kind => exact Build.constructs_addAttribute wf here name kind
  | addUniform pool name kind => exact Build.constructs_addUniform wf here name kind
  | addConstant pool value => exact Build.constructs_addConstant wf here value
  | binary op lhs rhs =>
    exact Build.constructs_binary wf op (held lhs (by simp [operands])) (held rhs (by simp [operands]))
  | varying inner => exact Build.constructs_varying wf (held inner (by simp [operands]))
  | construct pool kind args => exact Build.constructs_construct wf here kind held
  | call pool name args => exact Build.constructs_call wf here name held

end Request

/-- What a caller may ask for, by the type of the answer. -/
inductive Operation : Type → Type where
  /-- A checked construction. -/
  | checked (r : Request) : Operation Handle
  /-- A function called in a pool of the caller's choice. -/
  | call (pool : Nat) (name : String) (args : List Handle) : Operation Handle
  /-- A statically kinded construction. -/
  | static (r : Request) (action : Build Handle) (typed : r.Static action) : Operation Handle
  | compile (pool : Nat) (source : String) (scope : Scope) : Operation Handle
  | program (position colour : Handle) : Operation Program
  | typedProgram (position colour : Typed .vec4) : Operation Program
  | document (pool : Nat) (doc : Document) : Operation Program
  | assemble (program : Program) (options : Options) : Operation ShaderPair

namespace Operation

variable {α : Type} {w : Workspace}

/-- What an operation does. -/
def action : {α : Type} → Operation α → Build α
  | _, .checked r => r.checked
  | _, .call pool name args => Build.call pool name args
  | _, .static _ action _ => action
  | _, .compile pool source scope => Build.compile pool source scope
  | _, .program position colour => Program.ofHandles position colour
  | _, .typedProgram position colour => Typed.program position colour
  | _, .document pool doc => doc.build pool
  | _, .assemble p options => do Build.ofExcept (p.assemble (← get) options)

/-- The pool that an operation works on. -/
def receiver : {α : Type} → Operation α → Nat
  | _, .checked r | _, .static r _ _ => r.receiver
  | _, .call pool _ _ | _, .compile pool _ _ | _, .document pool _ => pool
  | _, .program position _ => position.pool
  | _, .typedProgram position _ => position.pool
  | _, .assemble p _ => p.pool

/-- The handles that an operation is given. -/
def operands : {α : Type} → Operation α → List Handle
  | _, .checked r | _, .static r _ _ => r.operands
  | _, .call _ _ args => args
  | _, .compile _ _ scope => scope.names.map (·.2)
  | _, .program position colour => [position, colour]
  | _, .typedProgram position colour => [position.erase, colour.erase]
  | _, .document .. | _, .assemble .. => []

/-- The pools after an operation, whether it succeeds or fails. -/
def after (op : Operation α) (w : Workspace) : Workspace := Build.after op.action w

/-- The source of a program is read off the pools. -/
theorem after_assemble (p : Program) (options : Options) (w : Workspace) :
    (assemble p options).after w = w := by
  have reads : (assemble p options).action w = Build.ofExcept (p.assemble w options) w := rfl
  rw [after, Build.after, reads]
  cases p.assemble w options <;> rfl

/-- **An operation changes at most the pool that it works on.** -/
theorem confined (op : Operation α) (w : Workspace) : w.SameBeside op.receiver (op.after w) := by
  cases op with
  | checked r => exact r.confined.after w
  | call pool name args => exact (Build.confined_call pool name args).after w
  | static r action typed =>
    show w.SameBeside r.receiver (Build.after action w)
    rw [typed.eq_checked]
    exact r.confined.after w
  | compile pool source scope => exact (Build.confined_compile pool source scope).after w
  | program position colour => exact (Build.confined_ofHandles position colour).after w
  | typedProgram position colour => exact (Build.confined_pair position.erase colour.erase).after w
  | document pool doc => exact (Build.confined_document pool doc).after w
  | assemble p options =>
    rw [after_assemble]
    exact .refl w p.pool

end Operation

theorem Build.Ensures.grows {action : Build α} {w : Workspace} {post : α → Workspace → Prop}
    (h : Ensures action w post) : w.Grows (after action w) := by
  unfold after
  cases run : action w with
  | ok a w' => exact (h.grows_ok run).1
  | error f w' => exact h.grows_error run

/-- **An operation keeps every entry.**  Its pool is there, and so are the handles that it is given. -/
theorem Operation.grows {α : Type} {w : Workspace} (op : Operation α) (wf : w.WellFormed)
    (here : op.receiver < w.pools.size) (held : ∀ h ∈ op.operands, w.Holds h) :
    w.Grows (op.after w) := by
  cases op with
  | checked r => exact (r.constructs wf here held).grows
  | call pool name args => exact (Build.constructs_call wf here name held).grows
  | static r action typed =>
    show w.Grows (Build.after action w)
    rw [typed.eq_checked]
    exact (r.constructs wf here held).grows
  | compile pool source scope =>
    have inScope : Build.ScopeHeld w scope := fun entry mem => held _ (List.mem_map_of_mem mem)
    exact (Build.constructs_compile wf here inScope source).grows
  | program position colour =>
    exact (Build.ensures_ofHandles wf (held position (by simp [operands]))
      (held colour (by simp [operands]))).grows
  | typedProgram position colour =>
    exact (Build.ensures_pair wf (held position.erase (by simp [operands]))
      (held colour.erase (by simp [operands])) rfl rfl).grows
  | document pool doc => exact (Build.ensures_document doc wf here).grows
  | assemble p options =>
    rw [after_assemble]
    exact wf.grows_refl

/-! ### Sessions -/

namespace Session

variable {s t : Session} {α : Type}

/-- An operation on a pool of the session, with handles that have been given out. -/
def Allows (s : Session) (op : Operation α) : Prop :=
  s.HasPool op.receiver ∧ ∀ h ∈ op.operands, h ∈ s.handles

theorem Valid.grows (v : s.Valid) {op : Operation α} (allowed : s.Allows op) :
    s.workspace.Grows (op.after s.workspace) :=
  op.grows v.wellFormed allowed.1 fun h hh => v.handles h (allowed.2 h hh)

/-- One step of a session keeps every entry. -/
theorem Valid.step_grows (v : s.Valid) (step : Step s t) : s.workspace.Grows t.workspace := by
  cases step with
  | handle offered run => exact ((v.constructs offered).grows_ok run).1
  | refusedHandle offered run => exact (v.constructs offered).grows_error run
  | program offered run => exact ((v.ensures_program offered).grows_ok run).1
  | refusedProgram offered run => exact (v.ensures_program offered).grows_error run
  | takeUp hpool hid => exact v.wellFormed.grows_refl

/-- A run of a session keeps every entry. -/
theorem Valid.run_grows (v : s.Valid) (run : Relation.ReflTransGen Step s t) :
    t.Valid ∧ s.workspace.Grows t.workspace := by
  induction run with
  | refl => exact ⟨v, v.wellFormed.grows_refl⟩
  | tail _ step ih =>
    obtain ⟨valid, grown⟩ := ih
    exact ⟨valid.step step, grown.trans (valid.step_grows step)⟩

/-- Text that is no expression is refused before anything is built. -/
theorem Valid.compile_misread {pool : Nat} {source : String} {scope : Scope} {f : Failure} {w : Workspace}
    (v : s.Valid) (allowed : s.Allows (.compile pool source scope))
    (run : Build.compile pool source scope s.workspace = .error f w) (family : f.family = .syntaxError) :
    w = s.workspace := by
  cases parsed : parse source with
  | ok e =>
    -- what is wrong with an expression is never its text
    have run : Build.lower pool scope e s.workspace = .error f w := by
      simpa only [Build.compile, parsed] using run
    have held : Build.ScopeHeld s.workspace scope := fun entry mem =>
      v.handles _ (allowed.2 _ (List.mem_map_of_mem mem))
    have outcome := Build.outcome_lower v.wellFormed allowed.1 held e v.wellFormed.grows_refl
    obtain ⟨_, _, _, _, _, _, faults, _, _⟩ := outcome.of_error run
    have other : f.family = .typeMismatch ∨ f.family = .validation := faults.family
    rw [family] at other
    rcases other with h | h <;> cases h
  | error e =>
    have run : (Build.fail (.malformedText e) : Build Handle) s.workspace = .error f w := by
      simpa only [Build.compile, parsed] using run
    cases run
    rfl

/-- What every operation on a session leaves as it was. -/
structure AppendOnly (s : Session) : Prop where
  /-- No pool comes or goes, and only the receiving pool changes. -/
  others : ∀ {α : Type} (op : Operation α),
    s.workspace.SameBeside op.receiver (op.after s.workspace)
  /-- Every pool, the receiving one included, goes on from its entries. -/
  pools : ∀ {α : Type} (op : Operation α), s.Allows op →
    ∀ i, (s.workspace.pool i).Continues ((op.after s.workspace).pool i)
  /-- Every handle still names a node of its kind. -/
  handles : ∀ {α : Type} (op : Operation α), s.Allows op →
    ∀ h ∈ s.handles, (op.after s.workspace).Holds h
  /-- The same after any number of operations. -/
  later : ∀ t, Relation.ReflTransGen Step s t →
    (∀ i, (s.workspace.pool i).Continues (t.workspace.pool i)) ∧ ∀ h ∈ s.handles, t.workspace.Holds h
  assembled : ∀ program options, (Operation.assemble program options).after s.workspace = s.workspace
  misread : ∀ pool source scope f w, s.Allows (.compile pool source scope) →
    Build.compile pool source scope s.workspace = .error f w → f.family = .syntaxError → w = s.workspace

/-- **Pools are append-only.**  An operation on a reachable session, whether it succeeds or fails, adds
entries to its receiving pool and changes nothing else. -/
theorem Reachable.append_only (reachable : s.Reachable) : s.AppendOnly where
  others := fun op => op.confined s.workspace
  pools := by
    intro α op allowed i
    have grown := reachable.valid.grows allowed
    exact (grown.kept i).continues (grown.wellFormed i)
  handles := fun op allowed h hh => (reachable.valid.handles h hh).grow (reachable.valid.grows allowed)
  later := by
    intro t run
    obtain ⟨-, grown⟩ := reachable.valid.run_grows run
    exact ⟨fun i => (grown.kept i).continues (grown.wellFormed i),
      fun h hh => (reachable.valid.handles h hh).grow grown⟩
  assembled := fun program options => Operation.after_assemble program options s.workspace
  misread := fun _ _ _ _ _ allowed run family => reachable.valid.compile_misread allowed run family

/-- Text whose second name is unknown fails after the first has been adopted; both pools keep their
entries. -/
theorem twoPools_append_only :
    let op := Operation.compile 0 "double + missing" ⟨[("double", ⟨1, 1, .float⟩)]⟩
    twoPools.Reachable ∧ twoPools.Allows op ∧ ((op.after twoPools.workspace).pool 0).size = 2 ∧
      ∀ i, (twoPools.workspace.pool i).Continues ((op.after twoPools.workspace).pool i) := by
  intro op
  have allowed : twoPools.Allows op := ⟨Nat.two_pos, by decide⟩
  exact ⟨reachable_twoPools, allowed, by decide +kernel, reachable_twoPools.append_only.pools op allowed⟩

end Session

end ShaderDag
