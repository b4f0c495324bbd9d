import Mathlib.Logic.Relation
import ShaderDag.Glsl.Hoist
import ShaderDag.Proofs.Binder

/-!
# Binders in use

A binder is changed in place by calls that may be refused, and it may be copied at any time.  The copies
then go their own ways.

* `Naming.inPlace` — a change that is made whole or not at all; `Naming.reserve_eq`, `Naming.bind_eq` —
  the calls make their changes one by one, and still are such changes;
* `Binder.Step` — a call, refused or not; `Binder.Effect`, `Binder.Step.effect` — everything that one can
  do;
* `Binder.ForkStep`, `Binder.ForksTo` — a call on one of several binders or a copy of one, and any number
  of these;
* `Binder.invariant_forks` — what every call keeps holds of all copies;
* `Binder.Guarantees`, `Binder.guaranteed_forks` — what holds of every binder, and what later calls keep of
  it.
-/

namespace ShaderDag

namespace Naming

variable {α β : Type} {names names' : Binder}

/-! ### Changes in place -/

/-- A change of the binder that is made whole or not at all. -/
def inPlace (change : Binder → Except Failure Binder) : Naming Unit := fun b =>
  match change b with
  | .ok b' => .ok () b'
  | .error f => .error f b

theorem run_accept_ok {name : String} (declarable : checkIdentifier name = .ok ()) :
    accept name names = .ok () names := by
  rw [accept, declarable]
  rfl

theorem run_accept_error {name : String} {f : Failure} (refused : checkIdentifier name = .error f) :
    accept name names = .error f names := by
  rw [accept, refused]
  rfl

/-- A name that may not be declared is refused before it is looked up, and a name in use is not added
again. -/
theorem reserve_eq (name : String) : reserve name = inPlace fun b => b.reserve name := by
  funext b
  rw [reserve, inPlace, Binder.reserve]
  cases declarable : checkIdentifier name with
  | error f => rw [bind_error (run_accept_error declarable)]; rfl
  | ok _ =>
    rw [bind_ok (run_accept_ok declarable)]
    cases used : b.isUsed name with
    | true =>
      have taken : take name b = .ok false b := by rw [take, modifyGet_ok, used]; rfl
      rw [bind_ok taken]
      rfl
    | false =>
      have taken : take name b = .ok true { b with used := name :: b.used } := by
        rw [take, modifyGet_ok, used]
        rfl
      rw [bind_ok taken]
      rfl

/-- A node that has a name is found out before the new name is taken, and a name that is refused is not
given to the node. -/
theorem bind_eq (id : Nat) (name : String) : bind id name = inPlace fun b => b.bind id name := by
  funext b
  rw [bind, inPlace, Binder.bind]
  cases declarable : checkIdentifier name with
  | error f => rw [bind_error (run_accept_error declarable)]; rfl
  | ok _ =>
    rw [bind_ok (run_accept_ok declarable), bind_ok get_ok]
    cases named : b.nameOf? id with
    | some existing => rfl
    | none =>
      dsimp only [ok_bind]
      rw [reserve_eq]
      cases reserved : b.reserve name with
      | error f =>
        have refused : inPlace (fun b => b.reserve name) b = .error f b := by rw [inPlace, reserved]
        rw [bind_error refused]
        rfl
      | ok b₁ =>
        have done : inPlace (fun b => b.reserve name) b = .ok () b₁ := by rw [inPlace, reserved]
        rw [bind_ok done]
        rfl

/-- What an action leaves behind, whether it succeeds or not. -/
def after (action : Naming α) (b : Binder) : Binder :=
  match action b with
  | .ok _ b' | .error _ b' => b'

theorem inPlace_eq_ok_iff {change : Binder → Except Failure Binder} :
    inPlace change names = .ok () names' ↔ change names = .ok names' := by
  rw [inPlace]
  cases change names with
  | error f => exact ⟨nofun, nofun⟩
  | ok b => exact ⟨fun h => by cases h; rfl, fun h => by cases h; rfl⟩

theorem inPlace_eq_error_iff {change : Binder → Except Failure Binder} {f : Failure} :
    inPlace change names = .error f names' ↔ change names = .error f ∧ names' = names := by
  rw [inPlace]
  cases change names with
  | error g => exact ⟨fun h => by cases h; exact ⟨rfl, rfl⟩, fun ⟨h, same⟩ => by cases h; rw [same]⟩
  | ok b => exact ⟨nofun, nofun⟩

theorem after_inPlace_ok (change : Binder → Except Failure Binder) (h : change names = .ok names') :
    after (inPlace change) names = names' := by
  rw [after, inPlace_eq_ok_iff.2 h]

theorem after_inPlace_error (change : Binder → Except Failure Binder) {f : Failure}
    (h : change names = .error f) : after (inPlace change) names = names := by
  rw [after, inPlace_eq_error_iff.2 ⟨h, rfl⟩]

end Naming

namespace Binder

variable {start b b' : Binder} {forks later : List Binder} {name : String} {id : Nat}

/-! ### Calls -/

@[simp] theorem isUsed_iff : b.isUsed name = true ↔ name ∈ b.used := List.contains_iff_mem

/-- The binder in which one more name is in use. -/
def withUsed (b : Binder) (name : String) : Binder := { b with used := name :: b.used }

theorem reserve_eq_ok_iff : b.reserve name = .ok b' ↔
    checkIdentifier name = .ok () ∧ name ∉ b.used ∧ b' = b.withUsed name := by
  rw [reserve]
  cases checkIdentifier name with
  | error f => exact ⟨nofun, nofun⟩
  | ok _ =>
    rw [ok_bind]
    by_cases used : name ∈ b.used
    · rw [if_pos (isUsed_iff.2 used)]
      exact ⟨nofun, fun h => absurd used h.2.1⟩
    · rw [if_neg fun h => used (isUsed_iff.1 h)]
      exact ⟨fun h => ⟨rfl, used, (Except.ok.inj h).symm⟩, fun h => congrArg Except.ok h.2.2.symm⟩

/-- One call on a binder.  It may be refused. -/
inductive Step (b : Binder) : Binder → Prop where
  | reserve (name : String) : Step b (Naming.after (Naming.reserve name) b)
  | bind (id : Nat) (name : String) : Step b (Naming.after (Naming.bind id name) b)
  | uniqueName (base : String) : Step b (Naming.after (Naming.uniqueName base) b)

theorem Step.of_reserve (done : b.reserve name = .ok b') : b.Step b' := by
  have step := Step.reserve (b := b) name
  rwa [Naming.reserve_eq, Naming.after_inPlace_ok (fun b => b.reserve name) done] at step

theorem Step.of_bind (done : b.bind id name = .ok b') : b.Step b' := by
  have step := Step.bind (b := b) id name
  rwa [Naming.bind_eq, Naming.after_inPlace_ok (fun b => b.bind id name) done] at step

theorem Step.of_bind_error {f : Failure} (refused : b.bind id name = .error f) : b.Step b := by
  have step := Step.bind (b := b) id name
  rwa [Naming.bind_eq, Naming.after_inPlace_error (fun b => b.bind id name) refused] at step

/-- What a call on a binder does: nothing if it is refused; a name is taken, alone or for a node; or a
free name is made. -/
inductive Effect (b : Binder) : Binder → Prop where
  | refused : Effect b b
  | reserved {name : String} (declarable : checkIdentifier name = .ok ()) (unused : name ∉ b.used) :
      Effect b (b.withUsed name)
  | bound {id : Nat} {name : String} (declarable : checkIdentifier name = .ok ())
      (unbound : b.nameOf? id = none) (unused : name ∉ b.used) : Effect b (b.withName id name)
  | named (base : String) : Effect b (b.uniqueName base).2

theorem Step.effect (step : b.Step b') : b.Effect b' := by
  cases step with
  | reserve name =>
    rw [Naming.reserve_eq]
    cases done : b.reserve name with
    | error f =>
      rw [Naming.after_inPlace_error _ done]
      exact .refused
    | ok c =>
      obtain ⟨declarable, unused, rfl⟩ := reserve_eq_ok_iff.1 done
      rw [Naming.after_inPlace_ok _ done]
      exact .reserved declarable unused
  | bind id name =>
    rw [Naming.bind_eq]
    cases done : b.bind id name with
    | error f =>
      rw [Naming.after_inPlace_error _ done]
      exact .refused
    | ok c =>
      obtain ⟨declarable, unbound, unused, rfl⟩ := bind_eq_ok_iff.1 done
      rw [Naming.after_inPlace_ok _ done]
      exact .bound declarable unbound unused
  | uniqueName base => exact .named base

/-- Everything that a binder says it still says in another one: names in use, and nodes with names. -/
structure Keeps (b b' : Binder) : Prop where
  used : ∀ name, b.isUsed name = true → b'.isUsed name = true
  named : ∀ id name, b.nameOf? id = some name → b'.nameOf? id = some name

theorem Keeps.refl (b : Binder) : b.Keeps b := ⟨fun _ h => h, fun _ _ h => h⟩

theorem Keeps.trans {c : Binder} (h : b.Keeps b') (h' : b'.Keeps c) : b.Keeps c :=
  ⟨fun name used => h'.used name (h.used name used),
    fun id name named => h'.named id name (h.named id name named)⟩

theorem Effect.keeps (effect : b.Effect b') : b.Keeps b' := by
  cases effect with
  | refused => exact .refl b
  | reserved _ _ =>
    refine ⟨fun other used => ?_, fun _ _ h => h⟩
    rw [isUsed_iff] at used ⊢
    exact List.mem_cons_of_mem _ used
  | bound _ unbound _ =>
    refine ⟨fun other used => ?_, fun other text named => ?_⟩
    · rw [isUsed_iff] at used ⊢
      exact List.mem_cons_of_mem _ used
    · rw [nameOf?_withName, if_neg, named]
      rintro rfl
      rw [unbound] at named
      cases named
  | named base =>
    refine ⟨fun other used => ?_, fun other text named => ?_⟩
    · rwa [isUsed_iff, uniqueName_used, ← isUsed_iff]
    · rwa [nameOf?, uniqueName_bound]

/-! ### Copies -/

/-- A call on one of several binders, or a copy of one of them. -/
inductive ForkStep (forks : List Binder) : List Binder → Prop where
  | call {i : Nat} {b b' : Binder} (at_i : forks[i]? = some b) (step : b.Step b') :
      ForkStep forks (forks.set i b')
  | clone {b : Binder} (mem : b ∈ forks) : ForkStep forks (forks ++ [b])

/-- The binders that calls and copies make of some binders. -/
abbrev ForksTo : List Binder → List Binder → Prop := Relation.ReflTransGen ForkStep

/-- **What every call keeps.**  It holds of all copies, after any number of calls on each of them. -/
theorem invariant_forks {holds : Binder → Prop} (keeps : ∀ b b', b.Effect b' → holds b → holds b')
    (run : ForksTo [start] forks) (first : holds start) : ∀ b ∈ forks, holds b := by
  induction run with
  | refl => exact List.forall_mem_singleton.2 first
  | tail _ step ih =>
    cases step with
    | @call i b b' at_i step =>
      intro c hc
      rcases List.mem_or_eq_of_mem_set hc with mem | rfl
      · exact ih c mem
      · exact keeps b c step.effect (ih b (List.mem_of_getElem? at_i))
    | @clone b mem =>
      intro c hc
      rcases List.mem_append.1 hc with hc | hc
      · exact ih c hc
      · exact List.mem_singleton.1 hc ▸ ih b mem

/-- Each binder keeps its place, and everything that it says. -/
theorem keeps_forks (run : ForksTo forks later) {i : Nat} (at_i : forks[i]? = some b) :
    ∃ b', later[i]? = some b' ∧ b.Keeps b' := by
  induction run with
  | refl => exact ⟨b, at_i, .refl b⟩
  | @tail mid later _ step ih =>
    obtain ⟨c, hc, kept⟩ := ih
    have bounded : i < mid.length := (List.getElem?_eq_some_iff.1 hc).1
    cases step with
    | @call j d d' at_j step =>
      by_cases same : j = i
      · subst same
        rw [hc] at at_j
        cases at_j
        refine ⟨d', ?_, kept.trans step.effect.keeps⟩
        rw [List.getElem?_set_self bounded]
      · exact ⟨c, by rw [List.getElem?_set_ne same, hc], kept⟩
    | clone mem => exact ⟨c, by rw [List.getElem?_append_left bounded, hc], kept⟩

/-! ### What every binder guarantees -/

/-- The names of a binder that grew from `start`. -/
structure GrownFrom (start b : Binder) : Prop where
  kept : ∀ name ∈ start.used, name ∈ b.used
  declarable : ∀ name ∈ b.used, name ∈ start.used ∨ checkIdentifier name = .ok ()
  used : ∀ id name, b.nameOf? id = some name → name ∈ b.used ∧ name ∉ start.used
  apart : ∀ id other name, b.nameOf? id = some name → b.nameOf? other = some name → id = other

theorem GrownFrom.effect (grown : GrownFrom start b) (effect : b.Effect b') : GrownFrom start b' := by
  cases effect with
  | refused => exact grown
  | @reserved name declarable unused =>
    exact {
      kept := fun other h => List.mem_cons_of_mem _ (grown.kept other h)
      declarable := List.forall_mem_cons.2 ⟨.inr declarable, grown.declarable⟩
      used := fun id other h => ⟨List.mem_cons_of_mem _ (grown.used id other h).1, (grown.used id other h).2⟩
      apart := grown.apart }
  | @bound id name declarable unbound unused =>
    have old : ∀ other text, b.nameOf? other = some text → text ≠ name := by
      rintro other text h rfl
      exact unused (grown.used other text h).1
    refine {
      kept := fun other h => List.mem_cons_of_mem _ (grown.kept other h)
      declarable := List.forall_mem_cons.2 ⟨.inr declarable, grown.declarable⟩
      used := fun other text h => ?_
      apart := fun one two text h h' => ?_ }
    · rw [nameOf?_withName] at h
      split at h
      · cases h
        exact ⟨List.mem_cons_self, fun mem => unused (grown.kept _ mem)⟩
      · exact ⟨List.mem_cons_of_mem _ (grown.used other text h).1, (grown.used other text h).2⟩
    · rw [nameOf?_withName] at h h'
      split at h <;> split at h'
      · next first second => rw [first, second]
      · cases h
        exact absurd rfl (old two _ h')
      · cases h'
        exact absurd rfl (old one _ h)
      · exact grown.apart one two text h h'
  | named base =>
    have lookup : ∀ other, (b.uniqueName base).2.nameOf? other = b.nameOf? other := fun other => by
      rw [nameOf?, nameOf?, uniqueName_bound]
    exact {
      kept := by simpa only [uniqueName_used] using grown.kept
      declarable := by simpa only [uniqueName_used] using grown.declarable
      used := by simpa only [uniqueName_used, lookup] using grown.used
      apart := by simpa only [lookup] using grown.apart }

theorem grownFrom_self (fresh : start.bound = []) : GrownFrom start start := by
  have unnamed : ∀ id, start.nameOf? id = none := fun id => by rw [nameOf?, fresh, List.lookup_nil]
  refine ⟨fun _ h => h, fun _ h => .inl h, fun id name h => ?_, fun id other name h => ?_⟩
  · rw [unnamed] at h
    cases h
  · rw [unnamed] at h
    cases h

/-- What a binder that grew from `start` guarantees: which names it has, when a call gives a node a name,
and what calls change. -/
structure Guarantees (start b : Binder) : Prop where
  bound_used : ∀ id name, b.nameOf? id = some name → b.isUsed name = true
  names_apart : ∀ id other name, b.nameOf? id = some name → b.nameOf? other = some name → id = other
  declarable : ∀ name, b.isUsed name = true → start.isUsed name = true ∨ checkIdentifier name = .ok ()
  unreserved : start = withReserved → ∀ id name, b.nameOf? id = some name → name ∉ reservedNames
  reserve_error : ∀ name f b', Naming.reserve name b = .error f b' → b'.used = b.used ∧ b'.bound = b.bound
  bind_error : ∀ id name f b', Naming.bind id name b = .error f b' → b'.used = b.used ∧ b'.bound = b.bound
  reserve_ok : ∀ name b', Naming.reserve name b = .ok () b' → b'.used = name :: b.used ∧ b'.bound = b.bound
  bind_ok : ∀ id name b', Naming.bind id name b = .ok () b' →
    b'.used = name :: b.used ∧ b'.bound = (id, name) :: b.bound
  bind_iff : ∀ id name, (∃ b', Naming.bind id name b = .ok () b') ↔
    checkIdentifier name = .ok () ∧ b.nameOf? id = none ∧ b.isUsed name = false

theorem GrownFrom.guarantees (grown : GrownFrom start b) : Guarantees start b where
  bound_used id name h := isUsed_iff.2 (grown.used id name h).1
  names_apart := grown.apart
  declarable name h := by
    rw [isUsed_iff] at h ⊢
    exact grown.declarable name h
  unreserved same id name h := by
    subst same
    exact (grown.used id name h).2
  reserve_error name f b' h := by
    rw [Naming.reserve_eq] at h
    rw [(Naming.inPlace_eq_error_iff.1 h).2]
    exact ⟨rfl, rfl⟩
  bind_error id name f b' h := by
    rw [Naming.bind_eq] at h
    rw [(Naming.inPlace_eq_error_iff.1 h).2]
    exact ⟨rfl, rfl⟩
  reserve_ok name b' h := by
    rw [Naming.reserve_eq, Naming.inPlace_eq_ok_iff] at h
    obtain ⟨-, -, rfl⟩ := reserve_eq_ok_iff.1 h
    exact ⟨rfl, rfl⟩
  bind_ok id name b' h := by
    rw [Naming.bind_eq, Naming.inPlace_eq_ok_iff] at h
    obtain ⟨-, -, -, rfl⟩ := bind_eq_ok_iff.1 h
    exact ⟨rfl, rfl⟩
  bind_iff id name := by
    rw [Naming.bind_eq]
    simp only [Naming.inPlace_eq_ok_iff, bind_eq_ok_iff, exists_and_left, exists_eq, and_true]
    rw [← Bool.not_eq_true, isUsed_iff]

/-- **What every binder guarantees.**  Start from a binder that is empty or has the reserved names, and
call and copy in any order, whether the calls are refused or not.  Every binder that results has the names
of its nodes in use, different nodes have different names, every name that was added may be declared, and
none that was given to a node was reserved; a refused call leaves the names as they were; and a node gets a
name exactly if the name may be declared, the node has none, and the name is free.  Whatever follows, each
binder keeps its names. -/
theorem guaranteed_forks (fresh : start = empty ∨ start = withReserved) (run : ForksTo [start] forks) :
    (∀ b ∈ forks, Guarantees start b) ∧ ∀ later, ForksTo forks later →
      ∀ (i : Nat) (b : Binder), forks[i]? = some b → ∃ b', later[i]? = some b' ∧ b.Keeps b' := by
  have unbound : start.bound = [] := by
    rcases fresh with rfl | rfl
    · rfl
    · rfl
  have grown := invariant_forks (fun _ _ effect h => GrownFrom.effect h effect) run (grownFrom_self unbound)
  exact ⟨fun b hb => (grown b hb).guarantees, fun later more i b at_i => keeps_forks more at_i⟩

/-- The reserved names, copied, with the name `corner` for a node in one of the two. -/
def cornerForks : List Binder := [withReserved.withName 0 "corner", withReserved]

/-- The name is given after the copy.  A further call wants it for another node, and is refused. -/
theorem forksTo_cornerForks : ForksTo [withReserved] cornerForks := by
  have given : withReserved.bind 0 "corner" = .ok (withReserved.withName 0 "corner") :=
    bind_eq_ok_iff.2 ⟨by decide, rfl, by decide, rfl⟩
  have again : (withReserved.withName 0 "corner").bind 1 "corner" =
      .error (.ofCause (.nameInUse "corner")) := by decide
  have copied : ForkStep [withReserved] [withReserved, withReserved] := .clone List.mem_cons_self
  have called : ForkStep [withReserved, withReserved] cornerForks := .call (i := 0) rfl (.of_bind given)
  have refused : ForkStep cornerForks cornerForks := .call (i := 0) rfl (.of_bind_error again)
  exact ((Relation.ReflTransGen.single copied).tail called).tail refused

theorem cornerForks_guaranteed :
    ForksTo [withReserved] cornerForks ∧ (∀ b ∈ cornerForks, Guarantees withReserved b) ∧
      ∀ later, ForksTo cornerForks later → ∀ (i : Nat) (b : Binder), cornerForks[i]? = some b →
        ∃ b', later[i]? = some b' ∧ b.Keeps b' :=
  ⟨forksTo_cornerForks, guaranteed_forks (.inr rfl) forksTo_cornerForks⟩

end Binder

end ShaderDag
