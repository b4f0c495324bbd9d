import ShaderDag.Proofs.Construction

/-!
# Sessions

A session is what a caller has at some moment: pools, and the handles and programs that earlier
operations gave out.  The caller may go on with any of them, in any order, and operations may fail.

* `Session.Offers`, `Session.OffersProgram` — the public operations on what has been given out;
* `Session.Step`, `Session.Reachable` — one operation, and any number of them from empty pools;
* `Session.Reachable.valid` — every pool of a reachable session is well-formed, and every handle and
  program is held.
-/

namespace ShaderDag

/-- Pools, with the handles and programs that have been given out. -/
structure Session where
  workspace : Workspace
  handles : List Handle
  programs : List Program

namespace Session

/-- A session that has only empty pools. -/
def start (pools : Nat) : Session := ⟨.empty pools, [], []⟩

/-- The session has a pool with this number. -/
def HasPool (s : Session) (pool : Nat) : Prop := pool < s.workspace.pools.size

/-! ### Operations -/

/-- The constructions that give out a handle, checked and statically kinded ones. -/
inductive Offers (s : Session) : Build Handle → Prop where
  | addAttribute {pool : Nat} (name : String) (kind : Kind) :
      s.HasPool pool → Offers s (Build.addAttribute pool name kind)
  | addUniform {pool : Nat} (name : String) (kind : Kind) :
      s.HasPool pool → Offers s (Build.addUniform pool name kind)
  | addConstant {pool : Nat} (value : Constant) :
      s.HasPool pool → Offers s (Build.addConstant pool value)
  | binary (op : Operator) {lhs rhs : Handle} :
      lhs ∈ s.handles → rhs ∈ s.handles → Offers s (Build.binary op lhs rhs)
  | varying {inner : Handle} : inner ∈ s.handles → Offers s (Build.varying inner)
  | construct {pool : Nat} (kind : Kind) {args : List Handle} :
      s.HasPool pool → (∀ h ∈ args, h ∈ s.handles) → Offers s (Build.construct pool kind args)
  | call {pool : Nat} (name : String) {args : List Handle} :
      s.HasPool pool → (∀ h ∈ args, h ∈ s.handles) → Offers s (Build.call pool name args)
  | compile {pool : Nat} (source : String) {scope : Scope} :
      s.HasPool pool → (∀ entry ∈ scope.names, entry.2 ∈ s.handles) →
      Offers s (Build.compile pool source scope)
  | typedAttribute {pool : Nat} {kind : Kind} (a : AttributeKind kind) (name : String) :
      s.HasPool pool → Offers s (Build.erase (Typed.addAttribute pool a name))
  | typedUniform {pool : Nat} (kind : Kind) (name : String) :
      s.HasPool pool → Offers s (Build.erase (Typed.addUniform pool kind name))
  | typedConstant {pool : Nat} (value : Constant) :
      s.HasPool pool → Offers s (Build.erase (Typed.addConstant pool value))
  | typedBinary {op : Operator} {l r kind : Kind} (form : BinaryForm op l r kind) {lhs : Typed l}
      {rhs : Typed r} : lhs.erase ∈ s.handles → rhs.erase ∈ s.handles →
      Offers s (Build.erase (Typed.binary form lhs rhs))
  | typedVarying {kind : Kind} (g : GenType kind) {inner : Typed kind} :
      inner.erase ∈ s.handles → Offers s (Build.erase (Typed.varying g inner))
  | typedConstruct {pool : Nat} {kind : Kind} {kinds : List Kind} (form : ConstructForm kind kinds)
      {args : TypedArgs kinds} : s.HasPool pool → (∀ h ∈ args.handles, h ∈ s.handles) →
      Offers s (Build.erase (Typed.construct pool form args))
  | typedCall {function : Builtin} {first kind : Kind} {kinds : List Kind}
      (form : CallForm function (first :: kinds) kind) {head : Typed first} {tail : TypedArgs kinds} :
      head.erase ∈ s.handles → (∀ h ∈ tail.handles, h ∈ s.handles) →
      Offers s (Build.erase (Typed.call form head tail))

/-- The operations that give out a program. -/
inductive OffersProgram (s : Session) : Build Program → Prop where
  | ofHandles {position colour : Handle} :
      position ∈ s.handles → colour ∈ s.handles → OffersProgram s (Program.ofHandles position colour)
  | typed {position colour : Typed .vec4} : position.erase ∈ s.handles → colour.erase ∈ s.handles →
      OffersProgram s (Typed.program position colour)
  | document {pool : Nat} (doc : Document) : s.HasPool pool → OffersProgram s (doc.build pool)

/-- One operation, which may fail.  A node of a pool may also be taken up again by its number. -/
inductive Step (s : Session) : Session → Prop where
  | handle {action : Build Handle} {h : Handle} {w : Workspace} (offered : s.Offers action)
      (run : action s.workspace = .ok h w) : Step s ⟨w, h :: s.handles, s.programs⟩
  | refusedHandle {action : Build Handle} {f : Failure} {w : Workspace} (offered : s.Offers action)
      (run : action s.workspace = .error f w) : Step s { s with workspace := w }
  | program {action : Build Program} {program : Program} {w : Workspace}
      (offered : s.OffersProgram action) (run : action s.workspace = .ok program w) :
      Step s ⟨w, s.handles, program :: s.programs⟩
  | refusedProgram {action : Build Program} {f : Failure} {w : Workspace}
      (offered : s.OffersProgram action) (run : action s.workspace = .error f w) :
      Step s { s with workspace := w }
  | takeUp {pool id : Nat} (hpool : s.HasPool pool) (hid : id < (s.workspace.pool pool).size) :
      Step s { s with handles := ⟨pool, id, (s.workspace.pool pool).kind id⟩ :: s.handles }

/-- A session that operations lead to from empty pools. -/
def Reachable (s : Session) : Prop := ∃ pools, Relation.ReflTransGen Step (start pools) s

/-! ### What every reachable session satisfies -/

/-- Pools are well-formed, and everything that was given out is there. -/
structure Valid (s : Session) : Prop where
  wellFormed : s.workspace.WellFormed
  handles : ∀ h ∈ s.handles, s.workspace.Holds h
  programs : ∀ program ∈ s.programs, program.Held s.workspace

theorem valid_start (pools : Nat) : (start pools).Valid :=
  ⟨Workspace.wellFormed_empty pools, by simp [start], by simp [start]⟩

variable {s t : Session}

theorem Valid.constructs {action : Build Handle} (v : s.Valid) (offered : s.Offers action) :
    Build.Constructs action s.workspace := by
  have wf := v.wellFormed
  cases offered with
  | addAttribute name kind hpool => exact Build.constructs_addAttribute wf hpool name kind
  | addUniform name kind hpool => exact Build.constructs_addUniform wf hpool name kind
  | addConstant value hpool => exact Build.constructs_addConstant wf hpool value
  | binary op hl hr => exact Build.constructs_binary wf op (v.handles _ hl) (v.handles _ hr)
  | varying hi => exact Build.constructs_varying wf (v.handles _ hi)
  | construct kind hpool ha =>
    exact Build.constructs_construct wf hpool kind fun h hh => v.handles h (ha h hh)
  | call name hpool ha => exact Build.constructs_call wf hpool name fun h hh => v.handles h (ha h hh)
  | compile source hpool hs =>
    exact Build.constructs_compile wf hpool (fun entry he => v.handles _ (hs entry he)) source
  | typedAttribute a name hpool =>
    rw [Build.erase_addAttribute]
    exact Build.constructs_addAttribute wf hpool name _
  | typedUniform kind name hpool => exact Build.constructs_addUniform wf hpool name kind
  | typedConstant value hpool => exact Build.constructs_addConstant wf hpool value
  | typedBinary form hl hr =>
    rw [Build.erase_binary]
    exact Build.constructs_binary wf _ (v.handles _ hl) (v.handles _ hr)
  | typedVarying g hi =>
    rw [Build.erase_varying]
    exact Build.constructs_varying wf (v.handles _ hi)
  | typedConstruct form hpool ha =>
    rw [Build.erase_construct]
    exact Build.constructs_construct wf hpool _ fun h hh => v.handles h (ha h hh)
  | @typedCall function first kind kinds form head tail hh ht =>
    rw [Build.erase_call]
    refine Build.constructs_call wf (v.handles _ hh).1 _ fun h mem => ?_
    rcases List.mem_cons.1 mem with rfl | mem
    · exact v.handles _ hh
    · exact v.handles h (ht h mem)

theorem Valid.ensures_program {action : Build Program} (v : s.Valid)
    (offered : s.OffersProgram action) :
    Build.Ensures action s.workspace fun program w => program.Held w := by
  have wf := v.wellFormed
  cases offered with
  | ofHandles hp hc => exact Build.ensures_ofHandles wf (v.handles _ hp) (v.handles _ hc)
  | typed hp hc => exact Build.ensures_pair wf (v.handles _ hp) (v.handles _ hc) rfl rfl
  | document doc hpool => exact Build.ensures_document doc wf hpool

theorem Valid.grow {w : Workspace} (v : s.Valid) (grown : s.workspace.Grows w) :
    Valid { s with workspace := w } :=
  ⟨grown.wellFormed, fun h hh => (v.handles h hh).grow grown,
    fun program hp => (v.programs program hp).grow grown⟩

/-- **One operation keeps a session valid.** -/
theorem Valid.step (v : s.Valid) (step : Step s t) : t.Valid := by
  cases step with
  | handle offered run =>
    obtain ⟨grown, held⟩ := (v.constructs offered).grows_ok run
    refine ⟨grown.wellFormed, ?_, (v.grow grown).programs⟩
    intro a ha
    rcases List.mem_cons.1 ha with rfl | ha
    · exact held
    · exact (v.grow grown).handles a ha
  | refusedHandle offered run => exact v.grow ((v.constructs offered).grows_error run)
  | program offered run =>
    obtain ⟨grown, held⟩ := (v.ensures_program offered).grows_ok run
    refine ⟨grown.wellFormed, (v.grow grown).handles, ?_⟩
    intro a ha
    rcases List.mem_cons.1 ha with rfl | ha
    · exact held
    · exact (v.grow grown).programs a ha
  | refusedProgram offered run => exact v.grow ((v.ensures_program offered).grows_error run)
  | takeUp hpool hid =>
    refine ⟨v.wellFormed, ?_, v.programs⟩
    intro a ha
    rcases List.mem_cons.1 ha with rfl | ha
    · obtain ⟨e, he⟩ := Pool.exists_entry hid
      exact ⟨hpool, e, he, (Pool.kind_eq he).symm⟩
    · exact v.handles a ha

/-- **Every reachable session is valid.** -/
theorem Reachable.valid (h : s.Reachable) : s.Valid := by
  obtain ⟨pools, run⟩ := h
  induction run with
  | refl => exact valid_start pools
  | tail _ step ih => exact ih.step step

theorem Reachable.handle {action : Build Handle} {h : Handle} {w : Workspace} (reached : s.Reachable)
    (offered : s.Offers action) (run : action s.workspace = .ok h w) :
    Reachable ⟨w, h :: s.handles, s.programs⟩ := by
  obtain ⟨pools, steps⟩ := reached
  exact ⟨pools, steps.tail (.handle offered run)⟩

end Session

/-! ### A session with one program

An attribute is interpolated, added to itself, and the sum is multiplied by itself, behind whatever
nodes the pool had before. -/

namespace Pool

/-- The pool with one more node. -/
def withNode (p : Pool) (kind : Kind) (node : Node Nat) : Pool :=
  p.push ⟨kind, node, Node.digest kind (node.map p.digest)⟩

@[simp] theorem size_withNode (p : Pool) (kind : Kind) (node : Node Nat) :
    (p.withNode kind node).size = p.size + 1 := Array.size_push _

/-- The pool with the nodes of the example. -/
def sample (base : Pool) : Pool :=
  (((base.withNode .vec4 (.attribute "corner")).withNode .vec4 (.varying base.size)).withNode .vec4
    (.operator .add (base.size + 1) (base.size + 1))).withNode .vec4
    (.operator .mul (base.size + 2) (base.size + 2))

end Pool

theorem Build.intern_new {p : Pool} {kind : Kind} {node : Node Nat} (new : p.find? kind node = none) :
    intern 0 kind node ⟨#[p]⟩ = .ok ⟨0, p.size, kind⟩ ⟨#[p.withNode kind node]⟩ := by
  rw [intern_run]
  show EStateM.Result.ok (⟨0, (p.intern kind node).1, kind⟩ : Handle) _ = _
  rw [show Workspace.pool ⟨#[p]⟩ 0 = p from rfl, Pool.intern, new]
  rfl

namespace Session

/-- The session in which the nodes of the example were added to one pool, and a program was made whose
position is the attribute and whose colour is the product. -/
def sample (base : Pool) (handles : List Handle) : Session :=
  ⟨⟨#[base.sample]⟩, ⟨0, base.size + 3, .vec4⟩ :: ⟨0, base.size + 2, .vec4⟩ ::
    ⟨0, base.size + 1, .vec4⟩ :: ⟨0, base.size, .vec4⟩ :: handles, [⟨0, base.size, base.size + 3⟩]⟩

theorem reachable_sample {base : Pool} {handles : List Handle}
    (before : Reachable ⟨⟨#[base]⟩, handles, []⟩)
    (new : base.find? .vec4 (.attribute "corner") = none) : (sample base handles).Reachable := by
  -- every later node has a child above all nodes that are there, so it is new
  have made : ∀ {p : Pool} {kind : Kind} {node : Node Nat} {c : Nat} {hs : List Handle},
      Reachable ⟨⟨#[p]⟩, hs, []⟩ → c ∈ node.children → p.size = c + 1 →
      Build.intern 0 kind node ⟨#[p]⟩ = .ok ⟨0, c + 1, kind⟩ ⟨#[p.withNode kind node]⟩ := by
    intro p kind node c hs reached hc size
    have wf : p.WellFormed := reached.valid.wellFormed 0
    rw [Build.intern_new (wf.find?_eq_none hc (Nat.le_of_eq size)), size]
  have home : ∀ (p : Pool) (hs : List Handle), HasPool ⟨⟨#[p]⟩, hs, []⟩ 0 := fun _ _ => Nat.one_pos
  have first := before.handle (.addAttribute "corner" .vec4 (home _ _)) (Build.intern_new new)
  have second := first.handle (.varying List.mem_cons_self)
    (made first List.mem_cons_self (Pool.size_withNode _ _ _))
  have third := second.handle (.binary .add List.mem_cons_self List.mem_cons_self)
    (made second List.mem_cons_self (by simp))
  have fourth := third.handle (.binary .mul List.mem_cons_self List.mem_cons_self)
    (made third List.mem_cons_self (by simp))
  obtain ⟨pools, run⟩ := fourth
  refine ⟨pools, run.tail ?_⟩
  have position : (⟨0, base.size, .vec4⟩ : Handle) ∈ (sample base handles).handles := by simp [sample]
  have colour : (⟨0, base.size + 3, .vec4⟩ : Handle) ∈ (sample base handles).handles := by simp [sample]
  exact .program (.ofHandles position colour) rfl

theorem reachable_sample_empty : (sample .empty []).Reachable :=
  reachable_sample ⟨1, .refl⟩ (by decide +kernel)

end Session

end ShaderDag
