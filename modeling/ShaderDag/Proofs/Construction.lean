import ShaderDag.Document.Basic
import ShaderDag.Proofs.Workspace
import ShaderDag.Typed

/-!
# Constructions give nodes of the right kind

Every way of building an expression — the checked constructions, the statically kinded ones, text and
documents — grows the workspace and gives a handle whose node is there and has the handle's kind.

* `Build.constructs_binary`, `Build.constructs_construct`, … — the checked constructions;
* `Build.erase_binary`, `Build.erase_call`, … — a statically kinded construction is the checked one;
* `Build.constructs_lower`, `Build.constructs_compile` — expressions given as text;
* `Build.ensures_document` — programs given as documents.
-/

namespace ShaderDag

namespace Build

variable {w : Workspace} {pool : Nat}

/-- What every construction ensures: the handle's node is there. -/
abbrev Constructs (action : Build Handle) (w : Workspace) : Prop :=
  Ensures action w fun h w' => w'.Holds h

theorem constructs_intern {kind : Kind} {node : Node Nat} (wf : w.WellFormed)
    (hpool : pool < w.pools.size) (ok : (w.pool pool).Admits kind node) :
    Constructs (intern pool kind node) w :=
  (ensures_intern wf hpool ok).mono fun _ _ _ held => held.2.2

/-! ### Checked constructions -/

theorem constructs_addAttribute (wf : w.WellFormed) (hpool : pool < w.pools.size) (name : String)
    (kind : Kind) : Constructs (addAttribute pool name kind) w := by
  unfold addAttribute
  split
  · next ok => exact constructs_intern wf hpool ⟨by simp [Node.children], ok⟩
  · exact ensures_fail _ wf

theorem constructs_addUniform (wf : w.WellFormed) (hpool : pool < w.pools.size) (name : String)
    (kind : Kind) : Constructs (addUniform pool name kind) w :=
  constructs_intern wf hpool ⟨by simp [Node.children], trivial⟩

theorem constructs_addConstant (wf : w.WellFormed) (hpool : pool < w.pools.size) (value : Constant) :
    Constructs (addConstant pool value) w :=
  constructs_intern wf hpool ⟨by simp [Node.children], rfl⟩

theorem constructs_binary {lhs rhs : Handle} (wf : w.WellFormed) (op : Operator) (hl : w.Holds lhs)
    (hr : w.Holds rhs) : Constructs (binary op lhs rhs) w := by
  unfold binary
  split
  · next kind result =>
    refine (ensures_adopt wf hl.1 hr).bind fun right w' grown has => ?_
    have hl' : w'.Holds lhs := hl.grow grown
    refine constructs_intern grown.wellFormed hl'.1 ⟨?_, ?_⟩
    · intro c hc
      simp only [Node.children, List.mem_cons, List.not_mem_nil, or_false] at hc
      rcases hc with rfl | rfl
      · exact hl'.lt
      · exact has.lt
    · show op.result? ((w'.pool lhs.pool).kind lhs.id) ((w'.pool lhs.pool).kind right) = some kind
      rw [hl'.kind_eq, has.kind_eq, result]
  · exact ensures_fail _ wf

theorem constructs_varying {inner : Handle} (wf : w.WellFormed) (held : w.Holds inner) :
    Constructs (varying inner) w := by
  unfold varying
  split
  · next ok =>
    refine constructs_intern wf held.1 ⟨?_, ?_⟩
    · intro c hc
      rw [Node.children, List.mem_singleton] at hc
      exact hc ▸ held.lt
    · show inner.kind = (w.pool inner.pool).kind inner.id ∧ _
      rw [held.kind_eq]
      exact ⟨rfl, ok⟩
  · exact ensures_fail _ wf

/-- The nodes that stand for some handles are there. -/
theorem mem_lt_of_forall₂ {ids : List Nat} {kinds : List Kind}
    (all : List.Forall₂ (w.Has pool) ids kinds) : ∀ c ∈ ids, c < (w.pool pool).size := by
  induction all with
  | nil => simp
  | cons has _ ih =>
    intro c hc
    rcases List.mem_cons.1 hc with rfl | hc
    · exact has.lt
    · exact ih c hc

/-- The nodes that stand for some handles have the handles' kinds. -/
theorem map_kind_of_forall₂ {ids : List Nat} {kinds : List Kind}
    (all : List.Forall₂ (w.Has pool) ids kinds) : ids.map (w.pool pool).kind = kinds := by
  induction all with
  | nil => rfl
  | cons has _ ih => rw [List.map_cons, has.kind_eq, ih]

theorem constructs_construct {args : List Handle} (wf : w.WellFormed) (hpool : pool < w.pools.size)
    (kind : Kind) (held : ∀ h ∈ args, w.Holds h) : Constructs (construct pool kind args) w := by
  unfold construct
  dsimp only
  split
  · next ok =>
    refine (ensures_adoptAll hpool wf.grows_refl held).bind fun ids w' grown all => ?_
    refine constructs_intern grown.wellFormed (grown.size_eq ▸ hpool) ⟨mem_lt_of_forall₂ all, ?_⟩
    show kind.canConstruct (ids.map (w'.pool pool).kind) = true
    rw [map_kind_of_forall₂ all, ok]
  · exact ensures_fail _ wf

theorem constructs_call {args : List Handle} (wf : w.WellFormed) (hpool : pool < w.pools.size)
    (name : String) (held : ∀ h ∈ args, w.Holds h) : Constructs (call pool name args) w := by
  unfold call
  split
  · exact ensures_fail _ wf
  · next function _ =>
    dsimp only
    split
    · next kind result =>
      refine (ensures_adoptAll hpool wf.grows_refl held).bind fun ids w' grown all => ?_
      refine constructs_intern grown.wellFormed (grown.size_eq ▸ hpool) ⟨mem_lt_of_forall₂ all, ?_⟩
      show function.result? (ids.map (w'.pool pool).kind) = some kind
      rw [map_kind_of_forall₂ all, result]
    · exact ensures_fail _ wf

/-! ### Statically kinded constructions -/

end Build

theorem GenType.isGenType {kind : Kind} (g : GenType kind) : kind.isGenType = true := by
  cases g <;> rfl

theorem AttributeKind.canBeAttribute {kind : Kind} (a : AttributeKind kind) :
    kind.canBeAttribute = true := by
  cases a <;> rfl

theorem BinaryForm.result {op : Operator} {l r kind : Kind} (form : BinaryForm op l r kind) :
    op.result? l r = some kind := by
  cases op <;> cases form <;> rfl

theorem ConstructForm.accepted {kind : Kind} {kinds : List Kind} (form : ConstructForm kind kinds) :
    kind.canConstruct kinds = true := by
  cases form <;> rfl

theorem CallForm.result {function : Builtin} {kinds : List Kind} {kind : Kind}
    (form : CallForm function kinds kind) : function.result? kinds = some kind := by
  cases form with
  | texture2D | cross => rfl
  | sin g | cos g | abs g | fract g | floor g | normalize g | length g | dot g | distance g | min g
  | max g | pow g | step g | mix g | clamp g => cases g <;> rfl

/-- The handles of arguments of known kinds. -/
def TypedArgs.handles {kinds : List Kind} : TypedArgs kinds → List Handle
  | .nil => []
  | .cons head tail => head.erase :: tail.handles

@[simp] theorem TypedArgs.map_kind_handles {kinds : List Kind} (args : TypedArgs kinds) :
    args.handles.map (·.kind) = kinds := by
  induction args with
  | nil => rfl
  | cons head tail ih => rw [handles, List.map_cons, ih]; rfl

namespace Build

variable {w : Workspace} {pool : Nat} {kind : Kind}

theorem erase_addAttribute (a : AttributeKind kind) (pool : Nat) (name : String) :
    erase (Typed.addAttribute pool a name) = addAttribute pool name kind := by
  rw [addAttribute, if_pos a.canBeAttribute]
  rfl

theorem erase_varying (g : GenType kind) (inner : Typed kind) :
    erase (Typed.varying g inner) = varying inner.erase := by
  have ok : inner.erase.kind.canInterpolate = true := g.isGenType
  rw [varying, if_pos ok]
  rfl

theorem erase_binary {op : Operator} {l r : Kind} (form : BinaryForm op l r kind) (lhs : Typed l)
    (rhs : Typed r) : erase (Typed.binary form lhs rhs) = binary op lhs.erase rhs.erase := by
  have result : op.result? lhs.erase.kind rhs.erase.kind = some kind := form.result
  simp only [binary, result, erase, Typed.binary, bind_assoc]
  rfl

theorem adoptAll_eq_mapM (pool : Nat) {kinds : List Kind} (args : TypedArgs kinds) :
    Typed.adoptAll pool args = args.handles.mapM (adopt pool) := by
  induction args with
  | nil => rfl
  | cons head tail ih => simp only [Typed.adoptAll, TypedArgs.handles, List.mapM_cons, ih]

theorem erase_construct {kinds : List Kind} (pool : Nat) (form : ConstructForm kind kinds)
    (args : TypedArgs kinds) :
    erase (Typed.construct pool form args) = construct pool kind args.handles := by
  have accepted : kind.canConstruct (args.handles.map (·.kind)) = true := by
    rw [args.map_kind_handles, form.accepted]
  simp only [construct, accepted, if_true, erase, Typed.construct, bind_assoc, adoptAll_eq_mapM]
  rfl

theorem erase_call {function : Builtin} {first : Kind} {kinds : List Kind}
    (form : CallForm function (first :: kinds) kind) (head : Typed first) (tail : TypedArgs kinds) :
    erase (Typed.call form head tail) =
      call head.pool function.name (head.erase :: tail.handles) := by
  have result : function.result? ((head.erase :: tail.handles).map (·.kind)) = some kind := by
    rw [List.map_cons, tail.map_kind_handles]
    exact form.result
  have home : adopt head.pool head.erase = pure head.id :=
    funext fun w => adopt_run_home w head.erase
  simp only [call, Builtin.ofName?_name, result, erase, Typed.call, bind_assoc, adoptAll_eq_mapM,
    List.mapM_cons, home, pure_bind]
  rfl

/-! ### Text -/

/-- Every handle that a scope gives is held. -/
def ScopeHeld (w : Workspace) (scope : Scope) : Prop := ∀ entry ∈ scope.names, w.Holds entry.2

theorem ScopeHeld.grow {scope : Scope} {w' : Workspace} (held : ScopeHeld w scope)
    (grown : w.Grows w') : ScopeHeld w' scope := fun entry mem => (held entry mem).grow grown

theorem ScopeHeld.get? {scope : Scope} {name : String} {h : Handle} (held : ScopeHeld w scope)
    (found : scope.get? name = some h) : w.Holds h :=
  held (name, h) (mem_of_lookup found)

theorem constructs_negate {operand : Handle} (wf : w.WellFormed) (hpool : pool < w.pools.size)
    (held : w.Holds operand) : Constructs (negate pool operand) w := by
  unfold negate
  split
  · exact ensures_fail _ wf
  · exact (constructs_addConstant wf hpool _).bind fun minus w' grown hm =>
      constructs_binary grown.wellFormed _ (held.grow grown) hm

theorem constructs_apply {args : List Handle} (wf : w.WellFormed) (hpool : pool < w.pools.size)
    (callee : String) (held : ∀ h ∈ args, w.Holds h) : Constructs (apply pool callee args) w := by
  unfold apply
  split
  · split
    · next inner => exact constructs_varying wf (held inner List.mem_cons_self)
    · exact ensures_fail _ wf
  · split
    · exact constructs_construct wf hpool _ held
    · exact constructs_call wf hpool callee held

mutual

theorem constructs_lower {w : Workspace} {pool : Nat} {scope : Scope} (e : Expression)
    (wf : w.WellFormed) (hpool : pool < w.pools.size) (held : ScopeHeld w scope) :
    Constructs (lower pool scope e) w := by
  match e with
  | .numeral value => exact constructs_addConstant wf hpool _
  | .name text offset =>
    rw [lower]
    split
    · next h found =>
      exact (ensures_adopt wf hpool (held.get? found)).bind fun id w' grown has =>
        ensures_pure grown.wellFormed has
    · exact (ensures_fail _ wf).adaptExcept _
  | .negate operand offset =>
    by_cases number : ∃ value, operand = .numeral value
    · obtain ⟨value, rfl⟩ := number
      exact constructs_addConstant wf hpool _
    · rw [lower]
      · refine (constructs_lower operand wf hpool held).bind fun h w' grown hh => ?_
        exact (constructs_negate grown.wellFormed (grown.size_eq ▸ hpool) hh).adaptExcept _
      · exact fun value same => number ⟨value, same⟩
  | .binary op left right offset =>
    rw [lower]
    refine (constructs_lower left wf hpool held).bind fun l w₁ g₁ hl => ?_
    refine (constructs_lower right g₁.wellFormed (g₁.size_eq ▸ hpool) (held.grow g₁)).bind
      fun r w₂ g₂ hr => ?_
    exact (constructs_binary g₂.wellFormed op (hl.grow g₂) hr).adaptExcept _
  | .call callee args offset =>
    rw [lower]
    refine (ensures_lowerAll args wf hpool held).bind fun hs w' grown all => ?_
    exact (constructs_apply grown.wellFormed (grown.size_eq ▸ hpool) callee all).adaptExcept _

theorem ensures_lowerAll {w : Workspace} {pool : Nat} {scope : Scope} (es : List Expression)
    (wf : w.WellFormed) (hpool : pool < w.pools.size) (held : ScopeHeld w scope) :
    Ensures (lowerAll pool scope es) w fun hs w' => ∀ h ∈ hs, w'.Holds h := by
  match es with
  | [] => exact ensures_pure wf (by simp)
  | e :: es =>
    rw [lowerAll]
    refine (constructs_lower e wf hpool held).bind fun h w₁ g₁ hh => ?_
    refine (ensures_lowerAll es g₁.wellFormed (g₁.size_eq ▸ hpool) (held.grow g₁)).bind
      fun hs w₂ g₂ all => ensures_pure g₂.wellFormed ?_
    intro a ha
    rcases List.mem_cons.1 ha with rfl | ha
    · exact hh.grow g₂
    · exact all a ha

end

theorem constructs_compile {scope : Scope} (wf : w.WellFormed) (hpool : pool < w.pools.size)
    (held : ScopeHeld w scope) (source : String) : Constructs (compile pool source scope) w := by
  unfold compile
  split
  · next e _ => exact constructs_lower e wf hpool held
  · exact ensures_fail _ wf

theorem ensures_ofExcept {α : Type} {result : Except Failure α} (wf : w.WellFormed) :
    Ensures (ofExcept result) w fun a _ => result = .ok a := by
  cases result with
  | ok a => exact ensures_pure wf rfl
  | error f => exact wf.grows_refl

end Build

/-! ### Programs -/

/-- The pool of a program holds both outputs, of kind `vec4`. -/
structure Program.Held (program : Program) (w : Workspace) : Prop where
  position : w.Has program.pool program.position .vec4
  colour : w.Has program.pool program.colour .vec4

theorem Program.Held.grow {program : Program} {w w' : Workspace} (held : program.Held w)
    (grown : w.Grows w') : program.Held w' :=
  ⟨held.position.grow grown, held.colour.grow grown⟩

namespace Build

variable {w : Workspace} {pool : Nat}

theorem ensures_pair {position colour : Handle} (wf : w.WellFormed) (hp : w.Holds position)
    (hc : w.Holds colour) (kp : position.kind = .vec4) (kc : colour.kind = .vec4) :
    Ensures (Program.pair position colour) w fun program w' => program.Held w' := by
  refine (ensures_adopt wf hp.1 hc).bind fun id w' grown has => ?_
  exact ensures_pure grown.wellFormed ⟨kp ▸ hp.grow grown, kc ▸ has⟩

theorem ensures_ofHandles {position colour : Handle} (wf : w.WellFormed) (hp : w.Holds position)
    (hc : w.Holds colour) :
    Ensures (Program.ofHandles position colour) w fun program w' => program.Held w' := by
  unfold Program.ofHandles
  split
  · exact ensures_fail _ wf
  · next kp =>
    split
    · exact ensures_fail _ wf
    · next kc => exact ensures_pair wf hp hc (not_not.1 kp) (not_not.1 kc)

/-! ### Documents -/

theorem ScopeHeld.define {scope scope' : Scope} {name : String} {h : Handle}
    (held : ScopeHeld w scope) (hh : w.Holds h) (defined : scope.define name h = .ok scope') :
    ScopeHeld w scope' := by
  unfold Scope.define at defined
  split at defined
  · cases defined
  · cases defined
    intro entry mem
    rcases List.mem_cons.1 mem with rfl | mem
    · exact hh
    · exact held entry mem

/-- One declaration of a document: the name is checked, a node is made, the name is defined, and the
later declarations see it. -/
theorem ensures_declaration {scope : Scope} {name : String} {make : Build Handle}
    {next : Scope → Build Scope} (wf : w.WellFormed) (held : ScopeHeld w scope)
    (makes : ∀ w', w.Grows w' → Constructs make w')
    (rest : ∀ scope' w', w.Grows w' → ScopeHeld w' scope' →
      Ensures (next scope') w' fun scope'' w'' => ScopeHeld w'' scope'') :
    Ensures (do
      ofExcept (checkIdentifier name)
      let h ← make
      let scope ← ofExcept (scope.define name h)
      next scope) w fun scope' w' => ScopeHeld w' scope' := by
  refine (ensures_ofExcept wf).bind fun _ w₁ g₁ _ => ?_
  refine (makes w₁ g₁).bind fun h w₂ g₂ hh => ?_
  refine (ensures_ofExcept g₂.wellFormed).bind fun scope' w₃ g₃ defined => ?_
  have held₃ : ScopeHeld w₃ scope' := (((held.grow g₁).grow g₂).define hh defined).grow g₃
  exact rest scope' w₃ ((g₁.trans g₂).trans g₃) held₃

theorem ensures_buildAttributes (entries : List (String × Kind)) :
    ∀ {w : Workspace} {scope : Scope}, w.WellFormed → pool < w.pools.size → ScopeHeld w scope →
      Ensures (Document.buildAttributes pool scope entries) w fun scope' w' => ScopeHeld w' scope' := by
  induction entries with
  | nil => exact fun wf _ held => ensures_pure wf held
  | cons entry entries ih =>
    intro w scope wf hpool held
    refine ensures_declaration wf held (fun w' grown => ?_) fun scope' w' grown held' =>
      ih grown.wellFormed (grown.size_eq ▸ hpool) held'
    exact (constructs_addAttribute grown.wellFormed (grown.size_eq ▸ hpool) _ _).adaptExcept _

theorem ensures_buildUniforms (entries : List (String × Kind)) :
    ∀ {w : Workspace} {scope : Scope}, w.WellFormed → pool < w.pools.size → ScopeHeld w scope →
      Ensures (Document.buildUniforms pool scope entries) w fun scope' w' => ScopeHeld w' scope' := by
  induction entries with
  | nil => exact fun wf _ held => ensures_pure wf held
  | cons entry entries ih =>
    intro w scope wf hpool held
    refine ensures_declaration wf held (fun w' grown => ?_) fun scope' w' grown held' =>
      ih grown.wellFormed (grown.size_eq ▸ hpool) held'
    exact constructs_addUniform grown.wellFormed (grown.size_eq ▸ hpool) _ _

theorem constructs_buildDefinition {scope : Scope} (wf : w.WellFormed) (hpool : pool < w.pools.size)
    (held : ScopeHeld w scope) (d : Definition) :
    Constructs (Document.buildDefinition pool scope d) w := by
  refine (constructs_compile wf hpool held d.source).bind fun h w' grown hh => ?_
  split
  · exact constructs_varying grown.wellFormed hh
  · exact ensures_pure grown.wellFormed hh

theorem ensures_buildDefinitions (definitions : List Definition) :
    ∀ {w : Workspace} {scope : Scope}, w.WellFormed → pool < w.pools.size → ScopeHeld w scope →
      Ensures (Document.buildDefinitions pool scope definitions) w
        fun scope' w' => ScopeHeld w' scope' := by
  induction definitions with
  | nil => exact fun wf _ held => ensures_pure wf held
  | cons d definitions ih =>
    intro w scope wf hpool held
    refine ensures_declaration wf held (fun w' grown => ?_) fun scope' w' grown held' =>
      ih grown.wellFormed (grown.size_eq ▸ hpool) held'
    exact (constructs_buildDefinition grown.wellFormed (grown.size_eq ▸ hpool) (held.grow grown)
      d).adaptExcept _

/-- A document is built into a program whose outputs are nodes of the pool. -/
theorem ensures_document (doc : Document) (wf : w.WellFormed) (hpool : pool < w.pools.size) :
    Ensures (doc.build pool) w fun program w' => program.Held w' := by
  have empty : ScopeHeld w .empty := fun entry mem => by simp [Scope.empty] at mem
  unfold Document.build Document.buildScope
  refine Ensures.bind (P := fun scope w' => ScopeHeld w' scope) ?_ fun scope w₁ g₁ held => ?_
  · refine (ensures_buildAttributes _ wf hpool empty).bind fun s w₁ g₁ h₁ => ?_
    refine (ensures_buildUniforms _ g₁.wellFormed (g₁.size_eq ▸ hpool) h₁).bind fun s w₂ g₂ h₂ => ?_
    exact ensures_buildDefinitions _ g₂.wellFormed (g₂.size_eq ▸ g₁.size_eq ▸ hpool) h₂
  · have hpool₁ : pool < w₁.pools.size := g₁.size_eq ▸ hpool
    refine ((constructs_compile g₁.wellFormed hpool₁ held doc.position).adaptExcept _).bind
      fun position w₂ g₂ hp => ?_
    refine ((constructs_compile g₂.wellFormed (g₂.size_eq ▸ hpool₁) (held.grow g₂)
      doc.colour).adaptExcept _).bind fun colour w₃ g₃ hc => ?_
    exact ensures_ofHandles g₃.wellFormed (hp.grow g₃) hc

end Build

end ShaderDag
