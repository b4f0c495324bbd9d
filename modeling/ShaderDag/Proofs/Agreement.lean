import ShaderDag.Proofs.Adoption
import ShaderDag.Proofs.Canonical
import ShaderDag.Proofs.Typing

/-!
# Checked and statically kinded constructions agree

Every construction exists twice: checked against the signature tables when it runs, and with the kinds of its
operands in its type.  The static forms are listed one by one, and their operands are adopted one by one; the
checked ones ask the tables and adopt a list.  Both accept the same kinds and do the same to the pools.

* `Request` — a construction with its operands, asked of either layer;
* `Request.checked` — the checked construction;
* `Request.Static` — the statically kinded constructions for a request;
* `Request.static?` — the statically kinded construction that is found for kinds known at run time;
* `BinaryForm.map_find?`, `ConstructForm.exists_find?`, `CallForm.exists_find?` — the static forms are all
  that the tables accept;
* `Request.layers_agree` — the two layers agree on every request in every workspace.
-/

namespace ShaderDag

/-! ### The static forms are complete -/

theorem GenType.exists_find? {kind : Kind} (h : kind.isGenType = true) :
    ∃ g, GenType.find? kind = some g := by
  cases kind <;> first | exact ⟨_, rfl⟩ | cases h

theorem AttributeKind.exists_find? {kind : Kind} (h : kind.canBeAttribute = true) :
    ∃ a, AttributeKind.find? kind = some a := by
  cases kind <;> first | exact ⟨_, rfl⟩ | cases h

@[simp] theorem BinaryForm.map_find? (op : Operator) (l r : Kind) :
    (BinaryForm.find? op l r).map (·.1) = op.result? l r := by
  cases op <;> cases l <;> cases r <;> rfl

theorem ConstructForm.exists_find? {kind : Kind} {args : List Kind}
    (h : kind.canConstruct args = true) : ∃ form, ConstructForm.find? kind args = some form := by
  rw [Kind.canConstruct, List.contains_iff_mem] at h
  cases kind <;> simp only [Kind.constructorForms, List.mem_cons, List.not_mem_nil, or_false] at h
  case vec2 => subst h; exact ⟨_, rfl⟩
  case vec3 => rcases h with rfl | rfl | rfl <;> exact ⟨_, rfl⟩
  case vec4 => rcases h with rfl | rfl | rfl | rfl | rfl <;> exact ⟨_, rfl⟩
  case mat4 => subst h; exact ⟨_, rfl⟩

theorem CallForm.exists_find? {function : Builtin} {args : List Kind} {kind : Kind}
    (h : function.result? args = some kind) :
    ∃ form, CallForm.find? function args = some ⟨kind, form⟩ := by
  revert h
  -- a row of the table is for fixed kinds, for one scalar or vector kind, or for two equal ones
  fun_cases Builtin.result? function args <;> intro h <;> cases h
  all_goals first
    | exact ⟨_, rfl⟩
    | obtain ⟨g, -⟩ := GenType.exists_find? ‹Kind.isGenType _ = true›
      cases g <;> exact ⟨_, rfl⟩
    | obtain ⟨rfl, gen⟩ := ‹_ = _ ∧ Kind.isGenType _ = true›
      obtain ⟨g, -⟩ := GenType.exists_find? gen
      cases g <;> exact ⟨_, rfl⟩

@[simp] theorem Builtin.result?_nil (function : Builtin) : function.result? [] = none := by
  cases function <;> rfl

@[simp] theorem TypedArgs.handles_ofHandles (args : List Handle) : (ofHandles args).handles = args := by
  induction args with
  | nil => rfl
  | cons h args ih =>
    rw [ofHandles, handles, ih]
    rfl

/-! ### Requests -/

/-- A construction with its operands. -/
inductive Request where
  | addAttribute (pool : Nat) (name : String) (kind : Kind)
  | addUniform (pool : Nat) (name : String) (kind : Kind)
  | addConstant (pool : Nat) (value : Constant)
  | binary (op : Operator) (lhs rhs : Handle)
  | varying (inner : Handle)
  | construct (pool : Nat) (kind : Kind) (args : List Handle)
  | call (pool : Nat) (name : String) (args : List Handle)

namespace Request

variable {r : Request} {action : Build Handle}

/-- The pool in which a function is called: that of its first argument, and the given one if it has none. -/
def home (pool : Nat) (args : List Handle) : Nat := (args.head?.map (·.pool)).getD pool

/-- The checked construction. -/
def checked {σ : Type} [NodeStore σ] : Request → BuildOn σ Handle
  | .addAttribute pool name kind => Build.addAttribute pool name kind
  | .addUniform pool name kind => Build.addUniform pool name kind
  | .addConstant pool value => Build.addConstant pool value
  | .binary op lhs rhs => Build.binary op lhs rhs
  | .varying inner => Build.varying inner
  | .construct pool kind args => Build.construct pool kind args
  | .call pool name args => Build.call (home pool args) name args

/-- The statically kinded constructions for a request. -/
inductive Static : Request → Build Handle → Prop where
  | addAttribute {kind : Kind} (pool : Nat) (a : AttributeKind kind) (name : String) :
      Static (.addAttribute pool name kind) (Build.erase (Typed.addAttribute pool a name))
  | addUniform (pool : Nat) (kind : Kind) (name : String) :
      Static (.addUniform pool name kind) (Build.erase (Typed.addUniform pool kind name))
  | addConstant (pool : Nat) (value : Constant) :
      Static (.addConstant pool value) (Build.erase (Typed.addConstant pool value))
  | binary {op : Operator} {l r kind : Kind} (form : BinaryForm op l r kind) (lhs : Typed l)
      (rhs : Typed r) : Static (.binary op lhs.erase rhs.erase) (Build.erase (Typed.binary form lhs rhs))
  | varying {kind : Kind} (g : GenType kind) (inner : Typed kind) :
      Static (.varying inner.erase) (Build.erase (Typed.varying g inner))
  | construct {kind : Kind} {kinds : List Kind} (pool : Nat) (form : ConstructForm kind kinds)
      (args : TypedArgs kinds) :
      Static (.construct pool kind args.handles) (Build.erase (Typed.construct pool form args))
  | call {function : Builtin} {first kind : Kind} {kinds : List Kind} (pool : Nat)
      (form : CallForm function (first :: kinds) kind) (head : Typed first) (tail : TypedArgs kinds) :
      Static (.call pool function.name (head.erase :: tail.handles))
        (Build.erase (Typed.call form head tail))

/-- The statically kinded construction for operands whose kinds are known at run time, if there is one. -/
def static? : Request → Option (Build Handle)
  | .addAttribute pool name kind => Build.typedAttribute? pool name kind
  | .addUniform pool name kind => some (Build.erase (Typed.addUniform pool kind name))
  | .addConstant pool value => some (Build.erase (Typed.addConstant pool value))
  | .binary op lhs rhs => Build.typedBinary? op lhs rhs
  | .varying inner => Build.typedVarying? inner
  | .construct pool kind args => Build.typedConstruct? pool kind args
  | .call _ name args => Build.typedCall? name args

/-- The kind that the signature tables give to a request. -/
def kind? : Request → Option Kind
  | .addAttribute _ _ kind => if kind.canBeAttribute then some kind else none
  | .addUniform _ _ kind => some kind
  | .addConstant _ _ => some .float
  | .binary op lhs rhs => op.result? lhs.kind rhs.kind
  | .varying inner => if inner.kind.canInterpolate then some inner.kind else none
  | .construct _ kind args => if kind.canConstruct (args.map (·.kind)) then some kind else none
  | .call _ name args => (Builtin.ofName? name).bind (·.result? (args.map (·.kind)))

/-- A static construction does what the checked one does. -/
theorem Static.eq_checked (h : r.Static action) : action = r.checked := by
  cases h with
  | addAttribute pool a name => exact Build.erase_addAttribute a pool name
  | addUniform pool kind name => rfl
  | addConstant pool value => rfl
  | binary form lhs rhs => exact Build.erase_binary form lhs rhs
  | varying g inner => exact Build.erase_varying g inner
  | construct pool form args => exact Build.erase_construct pool form args
  | call pool form head tail => exact Build.erase_call form head tail

/-- What is found at run time is a static construction. -/
theorem Static.of_static? (h : r.static? = some action) : r.Static action := by
  cases r with
  | addAttribute pool name kind =>
    obtain ⟨a, -, rfl⟩ := Option.map_eq_some_iff.1 h
    exact .addAttribute pool a name
  | addUniform pool name kind =>
    cases h
    exact .addUniform pool kind name
  | addConstant pool value =>
    cases h
    exact .addConstant pool value
  | binary op lhs rhs =>
    obtain ⟨⟨kind, form⟩, -, rfl⟩ := Option.map_eq_some_iff.1 h
    exact .binary form (Typed.ofOwnKind lhs) (Typed.ofOwnKind rhs)
  | varying inner =>
    obtain ⟨g, -, rfl⟩ := Option.map_eq_some_iff.1 h
    exact .varying g (Typed.ofOwnKind inner)
  | construct pool kind args =>
    obtain ⟨form, -, rfl⟩ := Option.map_eq_some_iff.1 h
    have static := Static.construct pool form (TypedArgs.ofHandles args)
    rwa [TypedArgs.handles_ofHandles] at static
  | call pool name args =>
    cases args with
    | nil => cases h
    | cons head tail =>
      obtain ⟨function, named, h⟩ := Option.bind_eq_some_iff.1 h
      obtain ⟨⟨kind, form⟩, -, h⟩ := Option.bind_eq_some_iff.1 h
      cases h
      obtain rfl := Builtin.ofName?_eq_some_iff.1 named
      have static := Static.call pool form (Typed.ofOwnKind head) (TypedArgs.ofHandles tail)
      rwa [TypedArgs.handles_ofHandles] at static

/-- The tables accept what a static construction takes. -/
theorem Static.exists_kind (h : r.Static action) : ∃ kind, r.kind? = some kind := by
  cases h with
  | @addAttribute kind pool a name => exact ⟨kind, if_pos a.canBeAttribute⟩
  | addUniform pool kind name => exact ⟨kind, rfl⟩
  | addConstant pool value => exact ⟨.float, rfl⟩
  | @binary op l r kind form lhs rhs => exact ⟨kind, form.result⟩
  | @varying kind g inner => exact ⟨kind, if_pos g.isGenType⟩
  | @construct kind kinds pool form args =>
    refine ⟨kind, if_pos ?_⟩
    rw [args.map_kind_handles]
    exact form.accepted
  | @call function first kind kinds pool form head tail =>
    refine ⟨kind, ?_⟩
    rw [kind?, Builtin.ofName?_name, Option.bind_some, List.map_cons, tail.map_kind_handles]
    exact form.result

/-- A static construction is found for everything that the tables accept. -/
theorem exists_static? {kind : Kind} (h : r.kind? = some kind) : ∃ action, r.static? = some action := by
  cases r with
  | addAttribute pool name kind =>
    obtain ⟨accepted, -⟩ := Option.ite_none_right_eq_some.1 h
    obtain ⟨a, found⟩ := AttributeKind.exists_find? accepted
    exact ⟨_, by rw [static?, Build.typedAttribute?, found, Option.map_some]⟩
  | addUniform pool name kind => exact ⟨_, rfl⟩
  | addConstant pool value => exact ⟨_, rfl⟩
  | binary op lhs rhs =>
    have listed : (BinaryForm.find? op lhs.kind rhs.kind).map (·.1) = some kind :=
      (BinaryForm.map_find? op lhs.kind rhs.kind).trans h
    obtain ⟨form, found, -⟩ := Option.map_eq_some_iff.1 listed
    exact ⟨_, by rw [static?, Build.typedBinary?, found, Option.map_some]⟩
  | varying inner =>
    obtain ⟨accepted, -⟩ := Option.ite_none_right_eq_some.1 h
    obtain ⟨g, found⟩ := GenType.exists_find? accepted
    exact ⟨_, by rw [static?, Build.typedVarying?, found, Option.map_some]⟩
  | construct pool kind args =>
    obtain ⟨accepted, -⟩ := Option.ite_none_right_eq_some.1 h
    obtain ⟨form, found⟩ := ConstructForm.exists_find? accepted
    exact ⟨_, by rw [static?, Build.typedConstruct?, found, Option.map_some]⟩
  | call pool name args =>
    obtain ⟨function, named, result⟩ := Option.bind_eq_some_iff.1 h
    cases args with
    | nil =>
      rw [List.map_nil, function.result?_nil] at result
      cases result
    | cons head tail =>
      have result : function.result? (head.kind :: tail.map (·.kind)) = some kind := result
      obtain ⟨form, found⟩ := CallForm.exists_find? result
      exact ⟨_, by rw [static?, Build.typedCall?, named, Option.bind_eq_bind, Option.bind_some, found]; rfl⟩

end Request

namespace Build

variable {σ : Type} [NodeStore σ]

theorem intern_ok (s : σ) (pool : Nat) (kind : Kind) (node : Node Nat) :
    ∃ h s', intern pool kind node s = .ok h s' := ⟨_, _, rfl⟩

theorem adopt_ok (s : σ) (pool : Nat) (h : Handle) : ∃ id s', adopt pool h s = .ok id s' := by
  unfold adopt
  split
  · exact ⟨_, _, rfl⟩
  · exact ⟨_, _, rfl⟩

theorem adoptAll_ok (pool : Nat) (args : List Handle) :
    ∀ s : σ, ∃ ids s', args.mapM (adopt pool) s = .ok ids s' := by
  induction args with
  | nil => exact fun s => ⟨[], s, rfl⟩
  | cons h args ih =>
    intro s
    obtain ⟨id, s₁, first⟩ := adopt_ok s pool h
    obtain ⟨ids, s₂, rest⟩ := ih s₁
    refine ⟨id :: ids, s₂, ?_⟩
    rw [List.mapM_cons, bind_ok first, bind_ok rest]
    rfl

end Build

namespace Request

variable {r : Request}

/-- What a checked construction does: after adopting its operands it adds one node of the kind that the tables
give; or they give none, and every pool stays as it was. -/
theorem checked_cases (r : Request) (w : Workspace) :
    (∃ kind pool node w', r.kind? = some kind ∧ r.checked w = Build.intern pool kind node w') ∨
      (r.kind? = none ∧ ∃ cause, r.checked w = .error (Failure.ofCause cause) w) := by
  cases r with
  | addAttribute pool name kind =>
    by_cases accepted : kind.canBeAttribute = true
    · refine .inl ⟨kind, pool, .attribute name, w, if_pos accepted, ?_⟩
      rw [checked, Build.addAttribute, if_pos accepted]
    · refine .inr ⟨if_neg accepted, .attributeKind name kind, ?_⟩
      rw [checked, Build.addAttribute, if_neg accepted]
      rfl
  | addUniform pool name kind => exact .inl ⟨kind, pool, .uniform name, w, rfl, rfl⟩
  | addConstant pool value => exact .inl ⟨.float, pool, .literal value, w, rfl, rfl⟩
  | binary op lhs rhs =>
    cases result : op.result? lhs.kind rhs.kind with
    | some kind =>
      obtain ⟨right, w₁, run⟩ := Build.adopt_ok w lhs.pool rhs
      refine .inl ⟨kind, lhs.pool, .operator op lhs.id right, w₁, result, ?_⟩
      simp only [checked, Build.binary, result, bind_ok run]
    | none =>
      refine .inr ⟨result, .undefinedOperator op lhs.kind rhs.kind, ?_⟩
      simp only [checked, Build.binary, result]
      rfl
  | varying inner =>
    by_cases accepted : inner.kind.canInterpolate = true
    · refine .inl ⟨inner.kind, inner.pool, .varying inner.id, w, if_pos accepted, ?_⟩
      rw [checked, Build.varying, if_pos accepted]
    · refine .inr ⟨if_neg accepted, .notInterpolable inner.kind, ?_⟩
      rw [checked, Build.varying, if_neg accepted]
      rfl
  | construct pool kind args =>
    by_cases accepted : kind.canConstruct (args.map (·.kind)) = true
    · obtain ⟨ids, w₁, run⟩ := Build.adoptAll_ok pool args w
      refine .inl ⟨kind, pool, .construct ids, w₁, if_pos accepted, ?_⟩
      simp only [checked, Build.construct, if_pos accepted, bind_ok run]
    · refine .inr ⟨if_neg accepted, .noConstructor kind (args.map (·.kind)), ?_⟩
      simp only [checked, Build.construct, if_neg accepted]
      rfl
  | call pool name args =>
    cases named : Builtin.ofName? name with
    | none =>
      refine .inr ⟨by rw [kind?, named, Option.bind_none], .unknownFunction name, ?_⟩
      simp only [checked, Build.call, named]
      rfl
    | some function =>
      have looked : (call pool name args).kind? = function.result? (args.map (·.kind)) := by
        rw [kind?, named, Option.bind_some]
      cases result : function.result? (args.map (·.kind)) with
      | some kind =>
        obtain ⟨ids, w₁, run⟩ := Build.adoptAll_ok (home pool args) args w
        refine .inl ⟨kind, home pool args, .call function ids, w₁, looked.trans result, ?_⟩
        simp only [checked, Build.call, named, result, bind_ok run]
      | none =>
        refine .inr ⟨looked.trans result, .noOverload function (args.map (·.kind)), ?_⟩
        simp only [checked, Build.call, named, result]
        rfl

/-- **The two layers agree.**  A request has a static construction exactly if the checked one accepts it, and
then both give the same handle and leave the same pools. -/
theorem layers_agree (r : Request) (w : Workspace) :
    ((∃ action, r.Static action) ↔ ∃ h w', r.checked w = .ok h w') ∧
      ∀ action, r.Static action → ∃ h w', action w = .ok h w' ∧ r.checked w = .ok h w' := by
  have runs : ∀ action, r.Static action → ∃ h w', action w = .ok h w' ∧ r.checked w = .ok h w' := by
    intro action static
    obtain ⟨_, accepted⟩ := static.exists_kind
    rcases r.checked_cases w with ⟨kind, pool, node, w', -, run⟩ | ⟨refused, -⟩
    · rw [Build.intern_run] at run
      exact ⟨_, _, by rw [static.eq_checked, run], run⟩
    · rw [refused] at accepted
      cases accepted
  refine ⟨⟨?_, ?_⟩, runs⟩
  · rintro ⟨action, static⟩
    obtain ⟨h, w', -, run⟩ := runs action static
    exact ⟨h, w', run⟩
  · rintro ⟨h, w', run⟩
    rcases r.checked_cases w with ⟨kind, -, -, -, accepted, -⟩ | ⟨-, cause, refused⟩
    · obtain ⟨action, found⟩ := exists_static? accepted
      exact ⟨action, .of_static? found⟩
    · rw [refused] at run
      cases run

end Request

end ShaderDag
