import ShaderDag.Graph.Table
import ShaderDag.Proofs.Agreement

/-!
# Refused constructions change nothing

A checked construction asks its signature table before it adopts an operand, stores a name or adds a node.
So a refusal leaves every table of names and of nodes as it was: nothing has been brought over, and no
name has been stored that no node uses.  The same holds of a program of two handles and of a name that is
defined twice.

* `Refuses` — an action fails exactly for a reason, and then its state is the old one;
* `Build.refuses_binary`, `Build.refuses_construct`, … — the constructions, each with its signature table, in
  whatever form the pools are kept;
* `Scope.defining` — a definition in a scope that is changed in place;
* `Guarded` — all checks together, on tables;
* `Tables.guarded` — they hold in every state.
-/

namespace ShaderDag

/-- An action fails exactly for a reason, and a failure leaves its state alone. -/
structure Refuses {σ α : Type} (action : EStateM Failure σ α) (state : σ) (reason : Prop) : Prop where
  fails_iff : (∃ f state', action state = .error f state') ↔ reason
  untouched : ∀ f state', action state = .error f state' → state' = state

namespace Refuses

variable {σ α : Type} {action : EStateM Failure σ α} {state : σ} {reason : Prop}

theorem of_ok {a : α} {state' : σ} (run : action state = .ok a state') (accepted : ¬reason) :
    Refuses action state reason := by
  refine ⟨⟨?_, fun h => absurd h accepted⟩, ?_⟩
  · intro ⟨f, state'', failed⟩
    rw [run] at failed
    cases failed
  · intro f state'' failed
    rw [run] at failed
    cases failed

theorem of_error {f : Failure} (run : action state = .error f state) (refused : reason) :
    Refuses action state reason := by
  refine ⟨⟨fun _ => refused, fun _ => ⟨f, state, run⟩⟩, ?_⟩
  intro g state' failed
  rw [run] at failed
  cases failed
  rfl

end Refuses

/-! ### Constructions -/

namespace Build

variable {σ : Type} [NodeStore σ] (s : σ)

theorem refuses_binary (op : Operator) (lhs rhs : Handle) :
    Refuses (binary op lhs rhs) s (op.result? lhs.kind rhs.kind = none) := by
  cases result : op.result? lhs.kind rhs.kind with
  | some kind =>
    obtain ⟨right, s₁, adopted⟩ := adopt_ok s lhs.pool rhs
    obtain ⟨h, s₂, added⟩ := intern_ok s₁ lhs.pool kind (.operator op lhs.id right)
    have run : binary op lhs rhs s = .ok h s₂ := by
      rw [binary, result]
      exact (bind_ok adopted).trans added
    exact .of_ok run (by simp)
  | none =>
    have run : binary op lhs rhs s = .error (.ofCause (.undefinedOperator op lhs.kind rhs.kind)) s := by
      rw [binary, result]
      rfl
    exact .of_error run rfl

theorem refuses_varying (inner : Handle) :
    Refuses (varying inner) s (inner.kind.canInterpolate = false) := by
  unfold varying
  cases accepted : inner.kind.canInterpolate with
  | true => exact .of_ok rfl (by simp)
  | false => exact .of_error rfl rfl

theorem refuses_addAttribute (pool : Nat) (name : String) (kind : Kind) :
    Refuses (addAttribute pool name kind) s (kind.canBeAttribute = false) := by
  unfold addAttribute
  cases accepted : kind.canBeAttribute with
  | true => exact .of_ok rfl (by simp)
  | false => exact .of_error rfl rfl

/-- Once its operands are accepted, a construction adopts them and adds its node. -/
theorem adoptAll_intern_ok (pool : Nat) (kind : Kind) (args : List Handle) (node : List Nat → Node Nat) :
    ∃ h s', (do
      let ids ← args.mapM (adopt pool)
      intern pool kind (node ids)) s = .ok h s' := by
  obtain ⟨ids, s₁, adopted⟩ := adoptAll_ok pool args s
  obtain ⟨h, s₂, added⟩ := intern_ok s₁ pool kind (node ids)
  exact ⟨h, s₂, (bind_ok adopted).trans added⟩

theorem refuses_construct (pool : Nat) (kind : Kind) (args : List Handle) :
    Refuses (construct pool kind args) s (kind.canConstruct (args.map (·.kind)) = false) := by
  unfold construct
  cases accepted : kind.canConstruct (args.map (·.kind)) with
  | true =>
    obtain ⟨h, s', run⟩ := adoptAll_intern_ok s pool kind args .construct
    exact .of_ok (by simpa only [accepted, if_true] using run) (by simp)
  | false => exact .of_error (by simp only [accepted]; rfl) rfl

theorem refuses_call (pool : Nat) (name : String) (args : List Handle) :
    Refuses (call pool name args) s
      ((Builtin.ofName? name).bind (·.result? (args.map (·.kind))) = none) := by
  unfold call
  cases Builtin.ofName? name with
  | none => exact .of_error rfl rfl
  | some function =>
    cases result : function.result? (args.map (·.kind)) with
    | some kind =>
      obtain ⟨h, s', run⟩ := adoptAll_intern_ok s pool kind args (.call function)
      exact .of_ok (by simpa only [result] using run) (by simp [result])
    | none => exact .of_error (by simp only [result]; rfl) result

theorem refuses_ofHandles (position colour : Handle) :
    Refuses (Program.ofHandles position colour) s (position.kind ≠ .vec4 ∨ colour.kind ≠ .vec4) := by
  unfold Program.ofHandles
  by_cases first : position.kind = .vec4
  · by_cases second : colour.kind = .vec4
    · obtain ⟨id, s₁, adopted⟩ := adopt_ok s position.pool colour
      rw [if_neg (not_not.2 first), if_neg (not_not.2 second)]
      exact .of_ok (bind_ok adopted) (by simp [first, second])
    · rw [if_neg (not_not.2 first), if_pos second]
      exact .of_error rfl (.inr second)
  · rw [if_pos first]
    exact .of_error rfl (.inl first)

end Build

/-! ### Definitions -/

namespace Scope

/-- Defines a name in a scope that is changed in place. -/
def defining (name : String) (h : Handle) : EStateM Failure Scope Unit := do
  match (← get).define name h with
  | .ok scope => set scope
  | .error f => throw f

theorem isSome_get? (scope : Scope) (name : String) :
    (scope.get? name).isSome = true ↔ name ∈ scope.names.map (·.1) := by
  rw [Option.isSome_iff_exists]
  constructor
  · intro ⟨h, found⟩
    exact List.mem_map.2 ⟨(name, h), mem_of_lookup found, rfl⟩
  · exact exists_lookup

theorem define_cases (scope : Scope) (name : String) (h : Handle) :
    (name ∈ scope.names.map (·.1) ∧
        scope.define name h = .error (Failure.ofCause (.alreadyDefined name))) ∨
      (name ∉ scope.names.map (·.1) ∧ scope.define name h = .ok ⟨(name, h) :: scope.names⟩) := by
  rw [← isSome_get?]
  by_cases defined : (scope.get? name).isSome = true
  · exact .inl ⟨defined, if_pos defined⟩
  · exact .inr ⟨defined, if_neg defined⟩

theorem refuses_defining (scope : Scope) (name : String) (h : Handle) :
    Refuses (defining name h) scope (name ∈ scope.names.map (·.1)) := by
  have run : defining name h scope = (match scope.define name h with
    | .ok scope' => set scope'
    | .error f => throw f : EStateM Failure Scope Unit) scope := rfl
  rcases scope.define_cases name h with ⟨there, result⟩ | ⟨new, result⟩
  · rw [result] at run
    exact .of_error run there
  · rw [result] at run
    exact .of_ok run new

theorem refuses_define {σ : Type} (scope : Scope) (name : String) (h : Handle) (s : σ) :
    Refuses (Build.ofExcept (scope.define name h)) s (name ∈ scope.names.map (·.1)) := by
  rcases scope.define_cases name h with ⟨there, result⟩ | ⟨new, result⟩
  · rw [result]
    exact .of_error rfl there
  · rw [result]
    exact .of_ok rfl new

end Scope

/-! ### All checks together -/

/-- The checks of the constructions on a row of tables, and of definitions in a scope. -/
structure Guarded (s : Tables) (scope : Scope) : Prop where
  binary : ∀ op lhs rhs, Refuses (Build.binary op lhs rhs) s (op.result? lhs.kind rhs.kind = none)
  varying : ∀ inner, Refuses (Build.varying inner) s (inner.kind.canInterpolate = false)
  addAttribute : ∀ pool name kind,
    Refuses (Build.addAttribute pool name kind) s (kind.canBeAttribute = false)
  construct : ∀ pool kind args,
    Refuses (Build.construct pool kind args) s (kind.canConstruct (args.map (·.kind)) = false)
  call : ∀ pool name args, Refuses (Build.call pool name args) s
    ((Builtin.ofName? name).bind (·.result? (args.map (·.kind))) = none)
  program : ∀ position colour,
    Refuses (Program.ofHandles position colour) s (position.kind ≠ .vec4 ∨ colour.kind ≠ .vec4)
  definition : ∀ name h, Refuses (Scope.defining name h) scope (name ∈ scope.names.map (·.1))
  /-- A definition leaves the tables alone too. -/
  tables : ∀ name h, Refuses (Build.ofExcept (scope.define name h)) s (name ∈ scope.names.map (·.1))

/-- **Checks come before changes.**  On every row of tables, a construction, a program or a definition
fails exactly if its signature table, the kind of an output or an earlier definition speaks against it.  A
failure leaves every table as it was, with its names, its nodes and the numbers by which they are found,
and the scope too. -/
theorem Tables.guarded (s : Tables) (scope : Scope) : Guarded s scope where
  binary := Build.refuses_binary s
  varying := Build.refuses_varying s
  addAttribute := Build.refuses_addAttribute s
  construct := Build.refuses_construct s
  call := Build.refuses_call s
  program := Build.refuses_ofHandles s
  definition := scope.refuses_defining
  tables := fun name h => scope.refuses_define name h s

end ShaderDag
