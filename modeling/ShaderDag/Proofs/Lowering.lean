import ShaderDag.Proofs.Adoption
import ShaderDag.Proofs.Typing

/-!
# Lowering follows the rules of the language

A parsed expression is built bottom up in a pool, with names that may come from other pools.  It is built
exactly if it has a kind, the node stands for the tree that the expression spells, and a refusal is the
fault of the first part, from left to right and children first, that has no kind.

* `Scope.kind?`, `Scope.tree?` — what the names of a scope stand for;
* `Workspace.Stands` — a handle stands for a tree;
* `Build.Outcome` — what an action does, both if it succeeds and if it fails;
* `Build.outcome_binary`, `Build.outcome_apply`, … — the constructions on handles that stand for trees;
* `Build.outcome_lower` — the run over a whole expression;
* `Session.Reachable.lower_iff_hasKind` — the statement about reachable sessions.
-/

namespace ShaderDag

/-! ### Scopes -/

/-- The kind of a name. -/
def Scope.kind? (scope : Scope) (name : String) : Option Kind := (scope.get? name).map (·.kind)

/-- The tree of a name. -/
def Scope.tree? (scope : Scope) (w : Workspace) (name : String) : Option Tree :=
  (scope.get? name).bind fun h => (w.pool h.pool).tree? h.id

theorem Workspace.Holds.exists_tree {w : Workspace} {h : Handle} (held : w.Holds h) (wf : w.WellFormed) :
    ∃ t, (w.pool h.pool).tree? h.id = some t ∧ t.kind = h.kind := by
  obtain ⟨t, ht⟩ := (wf h.pool).exists_tree held.lt
  exact ⟨t, ht, by rw [← Pool.kind_of_tree ht, held.kind_eq]⟩

/-- The kinds of names are those of their trees. -/
theorem Build.ScopeHeld.map_kind {w : Workspace} {scope : Scope} (held : Build.ScopeHeld w scope)
    (wf : w.WellFormed) (name : String) : (scope.tree? w name).map Tree.kind = scope.kind? name := by
  rw [Scope.tree?, Scope.kind?]
  cases found : scope.get? name with
  | none => rfl
  | some h =>
    obtain ⟨t, ht, hk⟩ := (held.get? found).exists_tree wf
    rw [Option.bind_some, ht, Option.map_some, Option.map_some, hk]

/-! ### Handles and trees -/

/-- A handle of a pool stands for a tree. -/
structure Workspace.Stands (w : Workspace) (pool : Nat) (h : Handle) (t : Tree) : Prop where
  home : h.pool = pool
  tree : (w.pool pool).tree? h.id = some t
  kind : t.kind = h.kind

theorem Workspace.Stands.grow {w w' : Workspace} {pool : Nat} {h : Handle} {t : Tree}
    (stands : w.Stands pool h t) (grown : w.Grows w') : w'.Stands pool h t :=
  ⟨stands.home, (grown.kept pool).tree?_eq stands.tree, stands.kind⟩

namespace Build

variable {α β : Type} {w : Workspace} {pool : Nat}

/-! ### Outcomes -/

/-- An action that succeeds grows the workspace and satisfies `good`; its failures satisfy `bad`. -/
def Outcome (action : Build α) (w : Workspace) (good : α → Workspace → Prop) (bad : Failure → Prop) :
    Prop :=
  match action w with
  | .ok a w' => w.Grows w' ∧ good a w'
  | .error f _ => bad f

section Rules

variable {good good' : α → Workspace → Prop} {next : β → Workspace → Prop} {bad bad' : Failure → Prop}
  {action : Build α}

theorem Outcome.of_ok {a : α} {w' : Workspace} (h : Outcome action w good bad) (run : action w = .ok a w') :
    w.Grows w' ∧ good a w' := by
  rw [Outcome, run] at h
  exact h

theorem Outcome.of_error {f : Failure} {w' : Workspace} (h : Outcome action w good bad)
    (run : action w = .error f w') : bad f := by
  rw [Outcome, run] at h
  exact h

theorem outcome_pure {a : α} (wf : w.WellFormed) (h : good a w) : Outcome (pure a) w good bad :=
  ⟨wf.grows_refl, h⟩

theorem outcome_fail {cause : Cause} (h : bad (.ofCause cause)) : Outcome (fail cause) w good bad := h

theorem Outcome.bind {rest : α → Build β} (h : Outcome action w good bad)
    (then' : ∀ a w', w.Grows w' → good a w' → Outcome (rest a) w' next bad) :
    Outcome (action >>= rest) w next bad := by
  cases run : action w with
  | ok a w' =>
    obtain ⟨grown, ok⟩ := h.of_ok run
    have after := then' a w' grown ok
    rw [Outcome, bind_ok run]
    cases run' : rest a w' with
    | ok b w'' =>
      obtain ⟨grown', ok'⟩ := after.of_ok run'
      exact ⟨grown.trans grown', ok'⟩
    | error f w'' => exact after.of_error run'
  | error f w' =>
    have failed : (action >>= rest) w = .error f w' := by simp only [Bind.bind, EStateM.bind, run]
    rw [Outcome, failed]
    exact h.of_error run

theorem Outcome.mono (h : Outcome action w good bad)
    (onGood : ∀ a w', w.Grows w' → good a w' → good' a w') (onBad : ∀ f, bad f → bad' f) :
    Outcome action w good' bad' := by
  unfold Outcome at h ⊢
  split at h
  · exact ⟨h.1, onGood _ _ h.1 h.2⟩
  · exact onBad _ h

theorem Outcome.mono_good (h : Outcome action w good bad)
    (onGood : ∀ a w', w.Grows w' → good a w' → good' a w') : Outcome action w good' bad :=
  h.mono onGood fun _ hf => hf

theorem Outcome.mono_bad (h : Outcome action w good bad) (onBad : ∀ f, bad f → bad' f) :
    Outcome action w good bad' :=
  h.mono (fun _ _ _ ok => ok) onBad

/-- A failure may be changed on its way out. -/
theorem Outcome.adapt {change : Failure → Failure} (h : Outcome action w good fun f => bad (change f)) :
    Outcome (EStateM.adaptExcept change action) w good bad := by
  cases run : action w with
  | ok a w' =>
    have adapted : EStateM.adaptExcept change action w = .ok a w' := by
      simp only [EStateM.adaptExcept, run]
    rw [Outcome, adapted]
    exact h.of_ok run
  | error f w' =>
    have adapted : EStateM.adaptExcept change action w = .error (change f) w' := by
      simp only [EStateM.adaptExcept, run]
    rw [Outcome, adapted]
    exact h.of_error run

theorem Outcome.located {offset : Nat} (h : Outcome action w good fun f => bad (f.locate offset)) :
    Outcome (locatedAt offset action) w good bad := h.adapt

end Rules

/-! ### Constructions on handles that stand for trees -/

section Constructions

variable {bad : Failure → Prop}

/-- A node is added to a pool, on handles of the pool that stand for trees. -/
theorem outcome_ofNode {kind : Kind} {m : Node (Handle × Tree)} (wf : w.WellFormed)
    (hpool : pool < w.pools.size) (stands : ∀ x ∈ m.children, w.Stands pool x.1 x.2)
    (fits : kind.Fits (m.map (·.2.kind))) :
    Outcome (ofNode pool kind (m.map (·.1))) w
      (fun h w' => w'.Stands pool h (.node kind (m.map (·.2)))) bad := by
  have home : ∀ h ∈ (m.map (·.1)).children, h.pool = pool := by
    intro h hh
    obtain ⟨x, hx, rfl⟩ := Node.mem_children_map.1 hh
    exact (stands x hx).home
  have kinds : (m.map (·.1)).map (·.kind) = m.map (·.2.kind) := by
    rw [Node.map_map]
    exact Node.map_congr fun x hx => (stands x hx).kind.symm
  let node := (m.map (·.1)).map (·.id)
  have admits : (w.pool pool).Admits kind node := by
    constructor
    · intro c hc
      simp only [node, Node.map_map] at hc
      obtain ⟨x, hx, rfl⟩ := Node.mem_children_map.1 hc
      exact Pool.tree?_lt (stands x hx).tree
    · have same : node.map (w.pool pool).kind = m.map (·.2.kind) := by
        simp only [node, Node.map_map]
        exact Node.map_congr fun x hx => Pool.kind_of_tree (stands x hx).tree
      rw [same]
      exact fits
  have wf' := (wf pool).intern admits
  have kept := Pool.extends_intern (w.pool pool) kind node
  obtain ⟨e, he, hk, hn⟩ := Pool.entry?_intern (w.pool pool) kind node
  rw [Outcome, ofNode_eq_intern home (kinds ▸ fits), intern_run]
  refine ⟨wf.setPool hpool wf' kept, rfl, ?_, rfl⟩
  rw [Workspace.pool_setPool hpool, if_pos rfl]
  have trees : node.map ((w.pool pool).intern kind node).2.tree? = (m.map (·.2)).map some := by
    rw [Node.map_map, Node.map_map, Node.map_map]
    exact Node.map_congr fun x hx => kept.tree?_eq (stands x hx).tree
  exact Pool.tree?_eq_some_iff.2 ⟨e, he, wf'.descending _ e he, by rw [hn, trees], hk⟩

theorem outcome_addConstant (wf : w.WellFormed) (hpool : pool < w.pools.size) (value : Constant) :
    Outcome (addConstant pool value) w (fun h w' => w'.Stands pool h (.literal value)) bad :=
  outcome_ofNode (m := .literal value) wf hpool (by simp [Node.children]) rfl

theorem outcome_binary {l r : Handle} {tl tr : Tree} (wf : w.WellFormed) (hpool : pool < w.pools.size)
    (op : Operator) (left : w.Stands pool l tl) (right : w.Stands pool r tr) :
    Outcome (binary op l r) w (fun h w' => ∃ t, Tree.binary? op tl tr = some t ∧ w'.Stands pool h t)
      fun f => f = .ofCause (.undefinedOperator op tl.kind tr.kind) ∧
        op.result? tl.kind tr.kind = none := by
  cases result : op.result? tl.kind tr.kind with
  | some kind =>
    have stands : ∀ x ∈ (Node.operator op (l, tl) (r, tr)).children, w.Stands pool x.1 x.2 := by
      simp [Node.children, left, right]
    have fits : kind.Fits ((Node.operator op (l, tl) (r, tr)).map (·.2.kind)) := result
    refine (outcome_ofNode wf hpool stands fits).mono_good ?_
    intro h w' _ built
    exact ⟨_, by rw [Tree.binary?, result]; rfl, built⟩
  | none =>
    have refused : binary op l r = fail (.undefinedOperator op tl.kind tr.kind) := by
      rw [binary, ← left.kind, ← right.kind, result]
    rw [refused]
    exact outcome_fail ⟨rfl, rfl⟩

theorem outcome_negate {h : Handle} {t : Tree} (wf : w.WellFormed) (hpool : pool < w.pools.size)
    (operand : w.Stands pool h t) :
    Outcome (negate pool h) w
      (fun h' w' => ∃ u, Tree.binary? .mul t (.literal .minusOne) = some u ∧ w'.Stands pool h' u)
      fun f => f = .ofCause (.undefinedNegation t.kind) ∧ Operator.mul.result? t.kind .float = none := by
  rw [negate, ← operand.kind]
  cases result : Operator.mul.result? t.kind .float with
  | none => exact outcome_fail ⟨rfl, rfl⟩
  | some kind =>
    refine (outcome_addConstant wf hpool .minusOne).bind fun minus w' grown hm => ?_
    refine (outcome_binary grown.wellFormed (grown.size_eq ▸ hpool) .mul (operand.grow grown) hm).mono_bad
      fun f refused => ?_
    exact absurd (result.symm.trans refused.2) (by simp)

theorem outcome_varying {h : Handle} {t : Tree} (wf : w.WellFormed) (hpool : pool < w.pools.size)
    (stands : w.Stands pool h t) :
    Outcome (varying h) w (fun h' w' => ∃ u, t.varying? = some u ∧ w'.Stands pool h' u)
      fun f => f = .ofCause (.notInterpolable t.kind) ∧ t.kind.canInterpolate = false := by
  cases accepted : t.kind.canInterpolate with
  | true =>
    have all : ∀ x ∈ (Node.varying (h, t)).children, w.Stands pool x.1 x.2 := by
      simpa [Node.children] using stands
    have fits : t.kind.Fits ((Node.varying (h, t)).map (·.2.kind)) := ⟨rfl, accepted⟩
    refine (outcome_ofNode wf hpool all fits).mono_good ?_
    intro h' w' _ built
    exact ⟨_, by rw [Tree.varying?, if_pos accepted]; rfl, built⟩
  | false =>
    have refused : varying h = fail (.notInterpolable t.kind) := by
      simp only [varying, ← stands.kind, accepted, Bool.false_eq_true, if_false]
    rw [refused]
    exact outcome_fail ⟨rfl, rfl⟩

section Lists

variable {zs : List (Handle × Tree)} (wf : w.WellFormed) (hpool : pool < w.pools.size)
  (stands : ∀ x ∈ zs, w.Stands pool x.1 x.2)

include stands in
theorem map_kind_of_stands : (zs.map (·.1)).map (·.kind) = (zs.map (·.2)).map Tree.kind := by
  rw [List.map_map, List.map_map]
  exact List.map_congr_left fun x hx => (stands x hx).kind.symm

include wf hpool stands

theorem outcome_construct (kind : Kind) :
    Outcome (construct pool kind (zs.map (·.1))) w
      (fun h w' => ∃ t, Tree.construct? kind (zs.map (·.2)) = some t ∧ w'.Stands pool h t)
      fun f => f = .ofCause (.noConstructor kind ((zs.map (·.2)).map Tree.kind)) ∧
        kind.canConstruct ((zs.map (·.2)).map Tree.kind) = false := by
  have kinds := map_kind_of_stands stands
  cases accepted : kind.canConstruct ((zs.map (·.2)).map Tree.kind) with
  | true =>
    have fits : kind.Fits ((Node.construct zs).map (·.2.kind)) := by
      rw [List.map_map] at accepted
      exact accepted
    refine (outcome_ofNode (m := .construct zs) wf hpool stands fits).mono_good ?_
    intro h w' _ built
    exact ⟨_, by rw [Tree.construct?, if_pos accepted]; rfl, built⟩
  | false =>
    have refused : construct pool kind (zs.map (·.1)) =
        fail (.noConstructor kind ((zs.map (·.2)).map Tree.kind)) := by
      simp only [construct, kinds, accepted, Bool.false_eq_true, if_false]
    rw [refused]
    exact outcome_fail ⟨rfl, rfl⟩

theorem outcome_call (function : Builtin) :
    Outcome (call pool function.name (zs.map (·.1))) w
      (fun h w' => ∃ t, Tree.call? function (zs.map (·.2)) = some t ∧ w'.Stands pool h t)
      fun f => f = .ofCause (.noOverload function ((zs.map (·.2)).map Tree.kind)) ∧
        function.result? ((zs.map (·.2)).map Tree.kind) = none := by
  have kinds := map_kind_of_stands stands
  cases result : function.result? ((zs.map (·.2)).map Tree.kind) with
  | some kind =>
    have fits : kind.Fits ((Node.call function zs).map (·.2.kind)) := by
      rw [List.map_map] at result
      exact result
    refine (outcome_ofNode (m := .call function zs) wf hpool stands fits).mono_good ?_
    intro h w' _ built
    exact ⟨_, by rw [Tree.call?, result]; rfl, built⟩
  | none =>
    have refused : call pool function.name (zs.map (·.1)) =
        fail (.noOverload function ((zs.map (·.2)).map Tree.kind)) := by
      simp only [call, Builtin.ofName?_name, kinds, result]
    rw [refused]
    exact outcome_fail ⟨rfl, rfl⟩

/-- A call of handles that stand for trees. -/
theorem outcome_apply (callee : String) :
    Outcome (apply pool callee (zs.map (·.1))) w
      (fun h w' => ∃ t, Tree.invoke? callee (zs.map (·.2)) = some t ∧ w'.Stands pool h t)
      fun f => ∃ cause, f = .ofCause cause ∧
        CallFaults callee ((zs.map (·.2)).map Tree.kind) cause := by
  rcases Tree.callee_cases callee with rfl | ⟨kind, rfl⟩ | ⟨function, rfl⟩ | ⟨hv, hk, hf⟩
  · match zs, stands with
    | [x], stands =>
      refine (outcome_varying wf hpool (stands x List.mem_cons_self)).mono_bad fun f refused => ?_
      exact ⟨_, refused.1, .notInterpolable refused.2⟩
    | [], _ => exact outcome_fail ⟨_, rfl, .varyingArity (by simp)⟩
    | x :: y :: zs, _ =>
      have arity : (((x :: y :: zs).map (·.2)).map Tree.kind).length ≠ 1 := by simp
      exact outcome_fail ⟨_, by simp, .varyingArity arity⟩
  · have dispatch : apply pool kind.name (zs.map (·.1)) = construct pool kind (zs.map (·.1)) := by
      unfold apply
      rw [if_neg kind.name_ne_varying, Kind.ofName?_name]
    rw [dispatch, Tree.invoke?_kind]
    refine (outcome_construct wf hpool stands kind).mono_bad fun f refused => ?_
    exact ⟨_, refused.1, .noConstructor refused.2⟩
  · have dispatch : apply pool function.name (zs.map (·.1)) = call pool function.name (zs.map (·.1)) := by
      unfold apply
      rw [if_neg function.name_ne_varying, Kind.ofName?_builtin]
    rw [dispatch, Tree.invoke?_builtin]
    refine (outcome_call wf hpool stands function).mono_bad fun f refused => ?_
    exact ⟨_, refused.1, .noOverload refused.2⟩
  · have dispatch : apply pool callee (zs.map (·.1)) = fail (.unknownFunction callee) := by
      unfold apply
      rw [if_neg hv, Kind.ofName?_eq_none hk, call, Builtin.ofName?_eq_none hf]
    rw [dispatch]
    exact outcome_fail ⟨_, rfl, .unknownFunction hv hk hf⟩

end Lists

end Constructions

/-! ### Whole expressions -/

/-- The operation on top of an expression whose parts have kinds: if it breaks a rule, it is the first
part to do so. -/
theorem Outcome.top {α : Type} {action : Build α} {good : α → Workspace → Prop}
    {kinds : String → Option Kind} {before : List Expression} {e : Expression} {offset : Nat}
    (sound : ∀ part ∈ before, ∃ kind, part.HasKind kinds kind)
    (h : Outcome action w good fun f => ∃ cause, f = .ofCause cause ∧ e.Faults kinds offset cause) :
    Outcome (locatedAt offset action) w good (FirstFault kinds (before ++ [e])) := by
  refine Outcome.located (h.mono_bad fun f refused => ?_)
  obtain ⟨cause, rfl, faults⟩ := refused
  exact (FirstFault.of_faults faults).append_left sound

section Lower

variable {w₀ : Workspace} {scope : Scope}

/-- The parts of expressions that spell trees have kinds. -/
theorem ScopeHeld.sound {parts : List Expression} (held : ScopeHeld w₀ scope) (wf₀ : w₀.WellFormed)
    (trees : ∀ part ∈ parts, ∃ u, part.tree? (scope.tree? w₀) = some u) :
    ∀ part ∈ parts, ∃ kind, part.HasKind scope.kind? kind := by
  intro part mem
  obtain ⟨u, hu⟩ := trees part mem
  exact ⟨u.kind, part.hasKind_of_tree? (held.map_kind wf₀) hu⟩

/-- A name is brought to the pool. -/
theorem outcome_name {text : String} {h : Handle} {bad : Failure → Prop} (wf₀ : w₀.WellFormed)
    (hpool : pool < w₀.pools.size) (held : ScopeHeld w₀ scope) (found : scope.get? text = some h)
    (grown : w₀.Grows w) :
    Outcome (do let id ← adopt pool h; return ⟨pool, id, h.kind⟩) w
      (fun h' w' => ∃ t, scope.tree? w₀ text = some t ∧ w'.Stands pool h' t) bad := by
  obtain ⟨t, ht, hk⟩ := (held.get? found).exists_tree wf₀
  obtain ⟨new, w', run, gains, u, hu, hn⟩ :=
    adopt_gains grown.wellFormed (grown.size_eq ▸ hpool) ((held.get? found).grow grown)
  rw [(grown.kept h.pool).tree?_eq ht] at hu
  cases hu
  rw [Outcome, bind_ok run]
  exact ⟨gains.grows, t, by rw [Scope.tree?, found, Option.bind_some, ht], rfl, hn, hk⟩

mutual

/-- **Lowering an expression.**  By induction on the expression: the parts stand for their trees, so the
operation on top either fits or breaks a rule, and a part that fails is the first to do so. -/
theorem outcome_lower {w₀ w : Workspace} {pool : Nat} {scope : Scope} (wf₀ : w₀.WellFormed)
    (hpool : pool < w₀.pools.size) (held : ScopeHeld w₀ scope) (e : Expression) (grown : w₀.Grows w) :
    Outcome (lower pool scope e) w
      (fun h w' => ∃ t, e.tree? (scope.tree? w₀) = some t ∧ w'.Stands pool h t)
      (FirstFault scope.kind? e.parts) := by
  have agree := held.map_kind wf₀
  match e with
  | .numeral value =>
    rw [lower]
    refine (outcome_addConstant grown.wellFormed (grown.size_eq ▸ hpool) _).mono_good ?_
    exact fun h w' _ stands => ⟨_, by rw [Expression.tree?], stands⟩
  | .name text offset =>
    rw [lower]
    split
    · next h found =>
      simp only [Expression.tree?]
      exact outcome_name wf₀ hpool held found grown
    · next unknown =>
      have fault : (Expression.name text offset).Faults scope.kind? offset (.unknownIdentifier text) :=
        .unknownIdentifier (by rw [Scope.kind?, unknown]; rfl)
      exact (outcome_fail (FirstFault.of_faults fault)).located
  | .negate operand offset =>
    by_cases number : ∃ value, operand = .numeral value
    · obtain ⟨value, rfl⟩ := number
      rw [lower]
      refine (outcome_addConstant grown.wellFormed (grown.size_eq ▸ hpool) _).mono_good ?_
      exact fun h w' _ stands => ⟨_, by rw [Expression.tree?], stands⟩
    · have other := not_exists.1 number
      rw [lower, Expression.parts]
      · have inner := (outcome_lower wf₀ hpool held operand grown).mono_bad
          fun f first => first.append_right [.negate operand offset]
        refine inner.bind fun h w₁ g₁ built => ?_
        obtain ⟨t, ht, stands⟩ := built
        have grown₁ := grown.trans g₁
        refine Outcome.top (held.sound wf₀ (operand.tree?_parts ht)) ?_
        refine (outcome_negate g₁.wellFormed (grown₁.size_eq ▸ hpool) stands).mono ?_ ?_
        · intro h' w₂ _ built
          obtain ⟨u, hu, stands'⟩ := built
          exact ⟨u, by rw [Expression.tree?_negate other, ht, Option.bind_some, hu], stands'⟩
        · intro f refused
          exact ⟨_, refused.1, .undefinedNegation (operand.hasKind_of_tree? agree ht) refused.2⟩
      · exact other
  | .binary op left right offset =>
    rw [lower, Expression.parts]
    have first := (outcome_lower wf₀ hpool held left grown).mono_bad
      fun f first => first.append_right (right.parts ++ [.binary op left right offset])
    refine first.bind fun l w₁ g₁ built => ?_
    obtain ⟨tl, hl, leftStands⟩ := built
    have soundLeft := held.sound wf₀ (left.tree?_parts hl)
    have grown₁ := grown.trans g₁
    have second := (outcome_lower wf₀ hpool held right grown₁).mono_bad
      fun f first => (first.append_right [.binary op left right offset]).append_left soundLeft
    refine second.bind fun r w₂ g₂ built => ?_
    obtain ⟨tr, hr, rightStands⟩ := built
    have grown₂ := grown₁.trans g₂
    have soundBoth : ∀ part ∈ left.parts ++ right.parts, ∃ kind, part.HasKind scope.kind? kind := by
      intro part mem
      rcases List.mem_append.1 mem with mem | mem
      · exact soundLeft part mem
      · exact held.sound wf₀ (right.tree?_parts hr) part mem
    rw [← List.append_assoc]
    refine Outcome.top soundBoth ?_
    refine (outcome_binary g₂.wellFormed (grown₂.size_eq ▸ hpool) op (leftStands.grow g₂)
      rightStands).mono ?_ ?_
    · intro h w₃ _ built
      obtain ⟨t, ht, stands⟩ := built
      exact ⟨t, by simp only [Expression.tree?, hl, hr, bind, Option.bind_some, ht], stands⟩
    · intro f refused
      exact ⟨_, refused.1, .undefinedOperator (left.hasKind_of_tree? agree hl)
        (right.hasKind_of_tree? agree hr) refused.2⟩
  | .call callee args offset =>
    rw [lower, Expression.parts]
    have first := (outcome_lowerAll wf₀ hpool held args grown).mono_bad
      fun f first => first.append_right [.call callee args offset]
    refine first.bind fun hs w₁ g₁ built => ?_
    obtain ⟨zs, rfl, trees, stands⟩ := built
    have grown₁ := grown.trans g₁
    refine Outcome.top (held.sound wf₀ (Expression.treeAll?_parts args trees)) ?_
    refine (outcome_apply g₁.wellFormed (grown₁.size_eq ▸ hpool) stands callee).mono ?_ ?_
    · intro h w₂ _ built
      obtain ⟨t, ht, stands'⟩ := built
      exact ⟨t, by simp only [Expression.tree?, trees, bind, Option.bind_some, ht], stands'⟩
    · intro f refused
      obtain ⟨cause, rfl, faults⟩ := refused
      exact ⟨cause, rfl, .call (Expression.haveKinds_of_treeAll? agree args trees) faults⟩

/-- The expressions of an argument list, from left to right. -/
theorem outcome_lowerAll {w₀ w : Workspace} {pool : Nat} {scope : Scope} (wf₀ : w₀.WellFormed)
    (hpool : pool < w₀.pools.size) (held : ScopeHeld w₀ scope) (es : List Expression)
    (grown : w₀.Grows w) :
    Outcome (lowerAll pool scope es) w
      (fun hs w' => ∃ zs : List (Handle × Tree), hs = zs.map (·.1) ∧
        Expression.treeAll? (scope.tree? w₀) es = some (zs.map (·.2)) ∧
        ∀ x ∈ zs, w'.Stands pool x.1 x.2)
      (FirstFault scope.kind? (Expression.partsAll es)) := by
  match es with
  | [] => exact outcome_pure grown.wellFormed ⟨[], rfl, by rw [Expression.treeAll?]; rfl, by simp⟩
  | e :: es =>
    rw [lowerAll, Expression.partsAll]
    have first := (outcome_lower wf₀ hpool held e grown).mono_bad
      fun f first => first.append_right (Expression.partsAll es)
    refine first.bind fun h w₁ g₁ built => ?_
    obtain ⟨t, ht, stands⟩ := built
    have sound := held.sound wf₀ (e.tree?_parts ht)
    have rest := (outcome_lowerAll wf₀ hpool held es (grown.trans g₁)).mono_bad
      fun f first => first.append_left sound
    refine rest.bind fun hs w₂ g₂ built => ?_
    obtain ⟨zs, rfl, trees, all⟩ := built
    refine outcome_pure g₂.wellFormed ⟨(h, t) :: zs, rfl, ?_, ?_⟩
    · simp only [Expression.treeAll?, ht, trees, bind, Option.bind_some]
      rfl
    · intro x hx
      rcases List.mem_cons.1 hx with rfl | hx
      · exact stands.grow g₂
      · exact all x hx

end

/-- An expression that spells a tree is built into a node that stands for the tree. -/
theorem lower_of_tree? {e : Expression} {t : Tree} (wf : w.WellFormed) (hpool : pool < w.pools.size)
    (held : ScopeHeld w scope) (ht : e.tree? (scope.tree? w) = some t) :
    ∃ h w', lower pool scope e w = .ok h w' ∧ w.Grows w' ∧ w'.Stands pool h t := by
  have outcome := outcome_lower wf hpool held e wf.grows_refl
  cases run : lower pool scope e w with
  | ok h w' =>
    obtain ⟨grown, u, hu, stands⟩ := outcome.of_ok run
    cases ht.symm.trans hu
    exact ⟨h, w', rfl, grown, stands⟩
  | error f w' =>
    -- the part at fault spells no tree, but all parts do
    obtain ⟨before, part, after, offset, split, -, faults, -⟩ := outcome.of_error run
    obtain ⟨u, hu⟩ := e.tree?_parts ht part (by rw [split]; simp)
    rw [faults.tree?_eq_none (held.map_kind wf)] at hu
    cases hu

end Lower

end Build

/-! ### Failures -/

/-- A fault is one of kinds or of an unknown name. -/
theorem Expression.Faults.family {kinds : String → Option Kind} {e : Expression} {offset : Nat}
    {cause : Cause} (h : e.Faults kinds offset cause) :
    cause.family = .typeMismatch ∨ cause.family = .validation := by
  cases h with
  | unknownIdentifier _ => exact .inr rfl
  | undefinedNegation _ _ => exact .inl rfl
  | undefinedOperator _ _ _ => exact .inl rfl
  | call _ faults =>
    cases faults with
    | unknownFunction _ _ _ => exact .inr rfl
    | _ => exact .inl rfl

/-- A failure with an offset and without an item names the offset once, behind the cause. -/
theorem Failure.message_located {f : Failure} {offset : Nat} (place : f.offset = some offset)
    (item : f.item = none) :
    f.message = f.family.lead ++ f.cause.text ++ " at byte " ++ toString offset := by
  simp only [message, place, item, String.append_empty, String.append_assoc]

namespace Session

variable {s : Session} {pool : Nat} {scope : Scope}

/-- **Lowering is the typing of the language.**  In every pool of a reachable session, with a scope of
handles of any of its pools: an expression is built exactly if it has a kind; the node has that kind and
stands for the tree that the expression spells; and a failure is the fault of the first part that has no
kind, with the offset of that part's operator, call or name. -/
theorem Reachable.lower_iff_hasKind (reachable : s.Reachable) (here : s.HasPool pool)
    (given : ∀ entry ∈ scope.names, entry.2 ∈ s.handles) (e : Expression) :
    (∀ kind, e.HasKind scope.kind? kind ↔
      ∃ h w, Build.lower pool scope e s.workspace = .ok h w ∧ h.kind = kind) ∧
    (∀ h w, Build.lower pool scope e s.workspace = .ok h w →
      h.pool = pool ∧ (w.pool pool).kind h.id = h.kind ∧
      ∃ t, e.tree? (scope.tree? s.workspace) = some t ∧ (w.pool pool).tree? h.id = some t) ∧
    ∀ f w, Build.lower pool scope e s.workspace = .error f w →
      FirstFault scope.kind? e.parts f ∧ (f.family = .typeMismatch ∨ f.family = .validation) ∧
      ∃ offset, f.offset = some offset ∧
        f.message = f.family.lead ++ f.cause.text ++ " at byte " ++ toString offset := by
  have valid := reachable.valid
  have wf := valid.wellFormed
  have held : Build.ScopeHeld s.workspace scope := fun entry mem => valid.handles _ (given entry mem)
  have outcome := Build.outcome_lower wf here held e wf.grows_refl
  refine ⟨fun kind => ?_, ?_, ?_⟩
  · rw [Expression.hasKind_iff_tree? (held.map_kind wf)]
    constructor
    · rintro ⟨t, ht, rfl⟩
      obtain ⟨h, w, run, -, stands⟩ := Build.lower_of_tree? wf here held ht
      exact ⟨h, w, run, stands.kind.symm⟩
    · rintro ⟨h, w, run, rfl⟩
      obtain ⟨-, t, ht, stands⟩ := outcome.of_ok run
      exact ⟨t, ht, stands.kind⟩
  · intro h w run
    obtain ⟨-, t, ht, stands⟩ := outcome.of_ok run
    exact ⟨stands.home, by rw [Pool.kind_of_tree stands.tree, stands.kind], t, ht, stands.tree⟩
  · intro f w run
    have first := outcome.of_error run
    refine ⟨first, ?_⟩
    obtain ⟨_, _, _, offset, _, _, faults, place, item⟩ := first
    exact ⟨faults.family, offset, place, Failure.message_located place item⟩

/-- The expression `vec2(double, double)` has a kind, and is built from a node of the other pool. -/
theorem twoPools_lower_vec2 :
    let scope : Scope := ⟨[("double", ⟨1, 1, .float⟩)]⟩
    let e : Expression := .call "vec2" [.name "double" 5, .name "double" 13] 0
    e.HasKind scope.kind? .vec2 ∧
      ∃ h w, Build.lower 0 scope e twoPools.workspace = .ok h w ∧ h.kind = .vec2 := by
  intro scope e
  have given : ∀ entry ∈ scope.names, entry.2 ∈ twoPools.handles := by decide
  have double : ∀ offset, (Expression.name "double" offset).HasKind scope.kind? .float :=
    fun offset => .name rfl
  have rule : CallHasKind Kind.vec2.name [.float, .float] .vec2 := .construct rfl
  have hasKind : e.HasKind scope.kind? .vec2 := .call (.cons (double 5) (.cons (double 13) .nil)) rule
  exact ⟨hasKind, ((reachable_twoPools.lower_iff_hasKind Nat.two_pos given e).1 .vec2).1 hasKind⟩

end Session

end ShaderDag
