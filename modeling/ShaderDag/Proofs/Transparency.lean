import ShaderDag.Proofs.Documents
import ShaderDag.Proofs.Inlining

/-!
# Definitions are transparent

The name of a definition can be replaced by its text: the document is built into the same nodes.  An
expression that was built once has nothing left to add, so building it again where its name stood gives the
node of the name, and the workspace goes the same way as before.

* `Build.Settled` — actions that have nothing left to add;
* `Build.lower_settled` — an expression that was built is one, also at other offsets and with more names;
* `Build.lower_inlines` — names replaced by expressions that are settled on their nodes;
* `Build.buildClauses_inline` — the later definitions, one by one;
* `Document.inline`, `Session.Reachable.inline_builds` — the statement about documents.
-/

namespace ShaderDag

theorem Workspace.setPool_pool (w : Workspace) (i : Nat) : w.setPool i (w.pool i) = w := by
  refine congrArg Workspace.mk (Array.ext_getElem? fun k => ?_)
  rw [Array.getElem?_setIfInBounds]
  split
  · next same =>
    subst same
    split
    · next inside => simp [pool, inside]
    · next outside => simp [outside]
  · rfl

namespace Build

variable {α β : Type} {w w' w₁ : Workspace} {pool : Nat}

/-! ### Actions with nothing left to add -/

/-- From the workspace `w` on, the action gives `a` and adds nothing. -/
def Settled (action : Build α) (a : α) (w : Workspace) : Prop := ∀ w', w.Grows w' → action w' = .ok a w'

theorem adaptExcept_ok_iff {change : Failure → Failure} {action : Build α} {a : α} :
    EStateM.adaptExcept change action w = .ok a w' ↔ action w = .ok a w' := by
  simp only [EStateM.adaptExcept]
  cases action w with
  | ok b w₁ => exact Iff.rfl
  | error f w₁ => exact ⟨nofun, nofun⟩

section Rules

variable {action : Build α} {a : α}

theorem settled_pure (a : α) (w : Workspace) : Settled (pure a) a w := fun _ _ => rfl

theorem Settled.grow (h : Settled action a w) (grown : w.Grows w') : Settled action a w' :=
  fun w'' grown' => h w'' (grown.trans grown')

theorem Settled.bind {next : α → Build β} {b : β} (h : Settled action a w) (then' : Settled (next a) b w) :
    Settled (action >>= next) b w := by
  intro w' grown
  rw [bind_ok (h w' grown)]
  exact then' w' grown

theorem Settled.adapt {change : Failure → Failure} (h : Settled action a w) :
    Settled (EStateM.adaptExcept change action) a w :=
  fun w' grown => adaptExcept_ok_iff.2 (h w' grown)

end Rules

/-- A node that was added is found from then on. -/
theorem settled_intern {kind : Kind} {node : Node Nat} {h : Handle} (hpool : pool < w.pools.size)
    (run : intern pool kind node w = .ok h w') : Settled (intern pool kind node) h w' := by
  intro w'' grown
  rw [intern_run] at run
  cases run
  obtain ⟨e, he, hk, hn⟩ := Pool.entry?_intern (w.pool pool) kind node
  have kept := grown.kept pool
  rw [Workspace.pool_setPool hpool, if_pos rfl] at kept
  have found := (grown.wellFormed pool).find?_eq_some_iff.2 ⟨e, kept _ e he, hk, hn⟩
  rw [intern_run, Pool.intern, found]
  dsimp only
  rw [Workspace.setPool_pool]

/-- An action that adds one node to a pool, or is refused. -/
def AddsNode (pool : Nat) (action : Build Handle) : Prop :=
  (∃ kind node, action = intern pool kind node) ∨ ∃ cause, action = fail cause

theorem AddsNode.settled {action : Build Handle} {h : Handle} (adds : AddsNode pool action)
    (hpool : pool < w.pools.size) (run : action w = .ok h w') : Settled action h w' := by
  rcases adds with ⟨kind, node, rfl⟩ | ⟨cause, rfl⟩
  · exact settled_intern hpool run
  · cases run

theorem addsNode_addConstant (value : Constant) : AddsNode pool (addConstant pool value) :=
  .inl ⟨_, _, rfl⟩

theorem addsNode_binary {l r : Handle} (op : Operator) (left : l.pool = pool) (right : r.pool = pool) :
    AddsNode pool (binary op l r) := by
  unfold binary
  split
  · next kind _ =>
    rw [left, adopt_home right, pure_bind]
    exact .inl ⟨kind, _, rfl⟩
  · exact .inr ⟨_, rfl⟩

theorem addsNode_varying {h : Handle} (home : h.pool = pool) : AddsNode pool (varying h) := by
  unfold varying
  split
  · rw [home]
    exact .inl ⟨_, _, rfl⟩
  · exact .inr ⟨_, rfl⟩

theorem addsNode_apply (callee : String) {hs : List Handle} (home : ∀ h ∈ hs, h.pool = pool) :
    AddsNode pool (apply pool callee hs) := by
  unfold apply
  split
  · split
    · exact addsNode_varying (home _ List.mem_cons_self)
    · exact .inr ⟨_, rfl⟩
  split
  · unfold construct
    dsimp only
    split
    · rw [adoptAll_home home, pure_bind]
      exact .inl ⟨_, _, rfl⟩
    · exact .inr ⟨_, rfl⟩
  unfold call
  split
  · exact .inr ⟨_, rfl⟩
  dsimp only
  split
  · rw [adoptAll_home home, pure_bind]
    exact .inl ⟨_, _, rfl⟩
  · exact .inr ⟨_, rfl⟩

/-- A negation adds the constant and the product. -/
theorem negate_settled {h h' : Handle} {t : Tree} (wf : w.WellFormed) (hpool : pool < w.pools.size)
    (stands : w.Stands pool h t) (run : negate pool h w = .ok h' w') : Settled (negate pool h) h' w' := by
  unfold negate at run ⊢
  split at run
  · cases run
  · next defined =>
    rw [if_neg defined]
    obtain ⟨minus, w₁, first, second⟩ := bind_eq_ok run
    have constant : Outcome (addConstant pool .minusOne) w
        (fun m w' => w'.Stands pool m (.literal .minusOne)) fun _ => False :=
      outcome_addConstant wf hpool .minusOne
    obtain ⟨g₁, standsMinus⟩ := constant.of_ok first
    have hpool₁ : pool < w₁.pools.size := g₁.size_eq ▸ hpool
    obtain ⟨g₂, -⟩ := (outcome_binary g₁.wellFormed hpool₁ .mul (stands.grow g₁) standsMinus).of_ok second
    have product := (addsNode_binary .mul stands.home standsMinus.home).settled hpool₁ second
    exact (((addsNode_addConstant .minusOne).settled hpool first).grow g₂).bind product

/-! ### Expressions that were built -/

/-- Every name keeps its handle. -/
def ScopeKept (scope scope' : Scope) : Prop := ∀ name h, scope.get? name = some h → scope'.get? name = some h

theorem Glossed.home {scope : Scope} {g : Glossary} {name : String} {h : Handle}
    (glossed : Glossed w pool scope g) (found : scope.get? name = some h) : h.pool = pool := by
  have rel := glossed.rel name
  rw [found] at rel
  obtain ⟨t, -, stands⟩ := exists_of_rel rel
  exact stands.home

/-- A name of the pool stands for its handle. -/
theorem lower_name {scope : Scope} {text : String} {h : Handle} (found : scope.get? text = some h)
    (home : h.pool = pool) (offset : Nat) : lower pool scope (.name text offset) = pure h := by
  rw [lower, found]
  dsimp only
  rw [adopt_home home, pure_bind, ← home]

/-- A name that is lowered is in the scope. -/
theorem exists_of_lower_name {scope : Scope} {text : String} {offset : Nat} {h : Handle}
    (run : lower pool scope (.name text offset) w = .ok h w') : ∃ h₀, scope.get? text = some h₀ := by
  cases found : scope.get? text with
  | some h₀ => exact ⟨h₀, rfl⟩
  | none =>
    rw [lower, found] at run
    cases run

end Build

/-- Nothing but a number takes the place of a number. -/
theorem Expression.Inlines.ne_numeral {R : String → Expression → Prop} {e e' : Expression}
    (h : e.Inlines R e') (operands : ∀ text value, R text value → ∀ v, value ≠ .numeral v)
    (other : ∀ v, e ≠ .numeral v) : ∀ v, e' ≠ .numeral v := by
  cases h with
  | numeral value => exact absurd rfl (other value)
  | replaced o allowed => exact operands _ _ allowed
  | name | negate | binary | call => exact fun v => nofun

namespace Build

mutual

/-- **What was built has nothing left to add**, at any offsets and with more names in scope. -/
theorem lower_settled {w₀ w w' : Workspace} {pool : Nat} {scope scope' : Scope} {g : Glossary}
    {e e' : Expression} {h : Handle} (wf₀ : w₀.WellFormed) (hpool : pool < w₀.pools.size)
    (glossed : Glossed w₀ pool scope g) (kept : ScopeKept scope scope') (moved : e.Relocates e')
    (grown : w₀.Grows w) (run : lower pool scope e w = .ok h w') :
    Settled (lower pool scope' e') h w' := by
  have held := glossed.held hpool
  have hpool' : pool < w.pools.size := grown.size_eq ▸ hpool
  match moved with
  | .numeral value =>
    rw [lower] at run ⊢
    exact (addsNode_addConstant _).settled hpool' run
  | .name text o o' =>
    obtain ⟨h₀, found⟩ := exists_of_lower_name run
    have home := glossed.home found
    rw [lower_name found home] at run
    rw [lower_name (kept text h₀ found) home]
    cases run
    exact settled_pure _ w
  | @Expression.Inlines.negate _ e e' o o' operand =>
    by_cases number : ∃ value, e = .numeral value
    · obtain ⟨value, rfl⟩ := number
      cases operand
      rw [lower] at run ⊢
      exact (addsNode_addConstant _).settled hpool' run
    · have other := not_exists.1 number
      have other' := operand.ne_numeral (fun _ _ allowed => allowed.elim) other
      rw [lower] at run ⊢
      · obtain ⟨h₁, w₁, first, second⟩ := bind_eq_ok run
        have second := adaptExcept_ok_iff.1 second
        obtain ⟨g₁, t, -, stands⟩ := (outcome_lower wf₀ hpool held e grown).of_ok first
        have hpool₁ : pool < w₁.pools.size := g₁.size_eq ▸ hpool'
        obtain ⟨g₂, -⟩ := (outcome_negate g₁.wellFormed hpool₁ stands).of_ok second
        have inner := lower_settled wf₀ hpool glossed kept operand grown first
        exact (inner.grow g₂).bind (negate_settled g₁.wellFormed hpool₁ stands second).adapt
      · exact other'
      · exact other
  | @Expression.Inlines.binary _ op l l' r r' o o' left right =>
    rw [lower] at run ⊢
    obtain ⟨hl, w₁, first, rest⟩ := bind_eq_ok run
    obtain ⟨hr, w₂, second, last⟩ := bind_eq_ok rest
    have last := adaptExcept_ok_iff.1 last
    obtain ⟨g₁, tl, -, standsL⟩ := (outcome_lower wf₀ hpool held l grown).of_ok first
    obtain ⟨g₂, tr, -, standsR⟩ := (outcome_lower wf₀ hpool held r (grown.trans g₁)).of_ok second
    have hpool₂ : pool < w₂.pools.size := ((grown.trans g₁).trans g₂).size_eq ▸ hpool
    obtain ⟨g₃, -⟩ := (outcome_binary g₂.wellFormed hpool₂ op (standsL.grow g₂) standsR).of_ok last
    have settledL := lower_settled wf₀ hpool glossed kept left grown first
    have settledR := lower_settled wf₀ hpool glossed kept right (grown.trans g₁) second
    have top := (addsNode_binary op standsL.home standsR.home).settled hpool₂ last
    exact (settledL.grow (g₂.trans g₃)).bind ((settledR.grow g₃).bind top.adapt)
  | @Expression.Inlines.call _ callee es es' o o' args =>
    rw [lower] at run ⊢
    obtain ⟨hs, w₁, first, last⟩ := bind_eq_ok run
    have last := adaptExcept_ok_iff.1 last
    obtain ⟨g₁, zs, rfl, -, stands⟩ := (outcome_lowerAll wf₀ hpool held es grown).of_ok first
    have hpool₁ : pool < w₁.pools.size := g₁.size_eq ▸ hpool'
    obtain ⟨g₂, -⟩ := (outcome_apply g₁.wellFormed hpool₁ stands callee).of_ok last
    have home : ∀ h ∈ zs.map (·.1), h.pool = pool := by
      intro h mem
      obtain ⟨x, hx, rfl⟩ := List.mem_map.1 mem
      exact (stands x hx).home
    have inner := lowerAll_settled wf₀ hpool glossed kept args grown first
    exact (inner.grow g₂).bind ((addsNode_apply callee home).settled hpool₁ last).adapt

theorem lowerAll_settled {w₀ w w' : Workspace} {pool : Nat} {scope scope' : Scope} {g : Glossary}
    {es es' : List Expression} {hs : List Handle} (wf₀ : w₀.WellFormed) (hpool : pool < w₀.pools.size)
    (glossed : Glossed w₀ pool scope g) (kept : ScopeKept scope scope')
    (moved : Expression.InlinesAll (fun _ _ => False) es es') (grown : w₀.Grows w)
    (run : lowerAll pool scope es w = .ok hs w') : Settled (lowerAll pool scope' es') hs w' := by
  match moved with
  | .nil =>
    rw [lowerAll] at run ⊢
    cases run
    exact settled_pure [] w
  | @Expression.InlinesAll.cons _ e e' es es' head tail =>
    rw [lowerAll] at run ⊢
    obtain ⟨h₁, w₁, first, rest⟩ := bind_eq_ok run
    obtain ⟨hs₁, w₂, second, last⟩ := bind_eq_ok rest
    cases last
    have held := glossed.held hpool
    obtain ⟨g₁, -⟩ := (outcome_lower wf₀ hpool held e grown).of_ok first
    obtain ⟨g₂, -⟩ := (outcome_lowerAll wf₀ hpool held es (grown.trans g₁)).of_ok second
    have settledHead := lower_settled wf₀ hpool glossed kept head grown first
    have settledTail := lowerAll_settled wf₀ hpool glossed kept tail (grown.trans g₁) second
    exact (settledHead.grow g₂).bind (settledTail.bind (settled_pure _ _))

end

/-! ### Names replaced by what they stand for -/

/-- Expressions that may stand for names: they are settled on the handles of the names, and are no
numbers. -/
def Transparent (w : Workspace) (pool : Nat) (scope : Scope) (R : String → Expression → Prop) : Prop :=
  ∀ text value, R text value → (∀ v, value ≠ .numeral v) ∧
    ∃ h, scope.get? text = some h ∧ Settled (lower pool scope value) h w

mutual

/-- **Names can be replaced by what they stand for.**  By induction on the expression: where a name gave its
handle, the expression in its place gives the same handle and adds nothing. -/
theorem lower_inlines {w₀ w w' : Workspace} {pool : Nat} {scope : Scope} {g : Glossary}
    {R : String → Expression → Prop} {e e' : Expression} {h : Handle} (wf₀ : w₀.WellFormed)
    (hpool : pool < w₀.pools.size) (glossed : Glossed w₀ pool scope g)
    (transparent : Transparent w₀ pool scope R) (inlined : e.Inlines R e') (grown : w₀.Grows w)
    (run : lower pool scope e w = .ok h w') : lower pool scope e' w = .ok h w' := by
  have held := glossed.held hpool
  match inlined with
  | .numeral value => exact run
  | .name text o o' =>
    obtain ⟨h₀, found⟩ := exists_of_lower_name run
    rw [lower_name found (glossed.home found)] at run ⊢
    exact run
  | @Expression.Inlines.replaced _ text e' o allowed =>
    obtain ⟨-, h₀, found, settled⟩ := transparent text e' allowed
    rw [lower_name found (glossed.home found)] at run
    cases run
    exact settled w grown
  | @Expression.Inlines.negate _ e e' o o' operand =>
    by_cases number : ∃ value, e = .numeral value
    · obtain ⟨value, rfl⟩ := number
      cases operand
      rw [lower] at run ⊢
      exact run
    · have other := not_exists.1 number
      have other' := operand.ne_numeral (fun text value allowed => (transparent text value allowed).1) other
      rw [lower] at run ⊢
      · obtain ⟨h₁, w₁, first, second⟩ := bind_eq_ok run
        rw [bind_ok (lower_inlines wf₀ hpool glossed transparent operand grown first)]
        exact adaptExcept_ok_iff.2 (adaptExcept_ok_iff.1 second)
      · exact other'
      · exact other
  | @Expression.Inlines.binary _ op l l' r r' o o' left right =>
    rw [lower] at run ⊢
    obtain ⟨hl, w₁, first, rest⟩ := bind_eq_ok run
    obtain ⟨hr, w₂, second, last⟩ := bind_eq_ok rest
    obtain ⟨g₁, -⟩ := (outcome_lower wf₀ hpool held l grown).of_ok first
    rw [bind_ok (lower_inlines wf₀ hpool glossed transparent left grown first),
      bind_ok (lower_inlines wf₀ hpool glossed transparent right (grown.trans g₁) second)]
    exact adaptExcept_ok_iff.2 (adaptExcept_ok_iff.1 last)
  | @Expression.Inlines.call _ callee es es' o o' args =>
    rw [lower] at run ⊢
    obtain ⟨hs, w₁, first, last⟩ := bind_eq_ok run
    rw [bind_ok (lowerAll_inlines wf₀ hpool glossed transparent args grown first)]
    exact adaptExcept_ok_iff.2 (adaptExcept_ok_iff.1 last)

theorem lowerAll_inlines {w₀ w w' : Workspace} {pool : Nat} {scope : Scope} {g : Glossary}
    {R : String → Expression → Prop} {es es' : List Expression} {hs : List Handle} (wf₀ : w₀.WellFormed)
    (hpool : pool < w₀.pools.size) (glossed : Glossed w₀ pool scope g)
    (transparent : Transparent w₀ pool scope R) (inlined : Expression.InlinesAll R es es')
    (grown : w₀.Grows w) (run : lowerAll pool scope es w = .ok hs w') :
    lowerAll pool scope es' w = .ok hs w' := by
  match inlined with
  | .nil => exact run
  | @Expression.InlinesAll.cons _ e e' es es' head tail =>
    rw [lowerAll] at run ⊢
    obtain ⟨h₁, w₁, first, rest⟩ := bind_eq_ok run
    obtain ⟨hs₁, w₂, second, last⟩ := bind_eq_ok rest
    obtain ⟨g₁, -⟩ := (outcome_lower wf₀ hpool (glossed.held hpool) e grown).of_ok first
    rw [bind_ok (lower_inlines wf₀ hpool glossed transparent head grown first),
      bind_ok (lowerAll_inlines wf₀ hpool glossed transparent tail (grown.trans g₁) second)]
    exact last

end

/-! ### Later definitions -/

/-- A definition that can be written in place of its name: its text is no bare number, and what it spells is
settled on the handle of the name, in this scope and all larger ones. -/
structure Inlinable (w : Workspace) (pool : Nat) (scope : Scope) (d : Definition) : Prop where
  parsed : ∃ own, parse d.source = .ok own
  operand : ∀ value, d.Spells value → ∀ v, value ≠ .numeral v
  settled : ∃ h, scope.get? d.name = some h ∧ ∀ scope', ScopeKept scope scope' →
    ∀ value, d.Spells value → Settled (lower pool scope' value) h w

section Later

variable {scope scope' : Scope} {g : Glossary} {d : Definition}

theorem ScopeKept.refl (scope : Scope) : ScopeKept scope scope := fun _ _ found => found

theorem ScopeKept.define {name : String} (new : scope.get? name = none) (h : Handle) :
    ScopeKept scope ⟨(name, h) :: scope.names⟩ := by
  intro other h' found
  have apart : other ≠ name := by
    rintro rfl
    rw [new] at found
    cases found
  rw [Scope.get?, List.lookup_cons, beq_false_of_ne apart]
  exact found

theorem Inlinable.later (h : Inlinable w pool scope d) (grown : w.Grows w')
    (kept : ScopeKept scope scope') : Inlinable w' pool scope' d := by
  obtain ⟨handle, found, settled⟩ := h.settled
  refine ⟨h.parsed, h.operand, handle, kept _ _ found, fun scope'' kept' value spells => ?_⟩
  exact (settled scope'' (fun name h' known => kept' name h' (kept name h' known)) value spells).grow grown

theorem Inlinable.transparent (h : Inlinable w pool scope d) :
    Transparent w pool scope fun text value => text = d.name ∧ d.Spells value := by
  rintro text value ⟨rfl, spells⟩
  obtain ⟨handle, found, settled⟩ := h.settled
  exact ⟨h.operand value spells, handle, found, settled scope (.refl scope) value spells⟩

/-- A text is compiled as before with the definition written in place. -/
theorem compile_inline {source : String} {h : Handle} (wf : w.WellFormed) (hpool : pool < w.pools.size)
    (glossed : Glossed w pool scope g) (inlinable : Inlinable w pool scope d)
    (run : compile pool source scope w = .ok h w') : compile pool (d.inline source) scope w = .ok h w' := by
  cases parsed : parse source with
  | error f =>
    rw [compile, parsed] at run
    cases run
  | ok e =>
    obtain ⟨own, parsedOwn⟩ := inlinable.parsed
    obtain ⟨e', parsed', inlined⟩ := Definition.parse_inline parsedOwn parsed
    rw [compile, parsed] at run
    rw [compile, parsed']
    exact lower_inlines wf hpool glossed inlinable.transparent inlined wf.grows_refl run

/-- The first of some clauses, and the scope in which the others are built. -/
theorem exists_of_buildClauses {c : Clause} {more : List Clause} (wf : w.WellFormed)
    (hpool : pool < w.pools.size) (glossed : Glossed w pool scope g)
    (run : Document.buildClauses pool scope (c :: more) w = .ok scope' w') :
    ∃ h w₁ t, checkIdentifier c.name = .ok () ∧ c.build pool scope w = .ok h w₁ ∧
      scope.get? c.name = none ∧ w.Grows w₁ ∧
      Glossed w₁ pool ⟨(c.name, h) :: scope.names⟩ ((c.name, t) :: g) ∧
      Document.buildClauses pool ⟨(c.name, h) :: scope.names⟩ more w₁ = .ok scope' w' := by
  rw [Document.buildClauses] at run
  obtain ⟨_, _, checked, run⟩ := bind_eq_ok run
  obtain ⟨h, w₁, built, run⟩ := bind_eq_ok run
  obtain ⟨scope₁, _, added, rest⟩ := bind_eq_ok run
  obtain ⟨-, rfl, declarable⟩ := (outcome_ofExcept wf).of_ok checked
  obtain ⟨grown, t, -, stands⟩ := (outcome_clause wf hpool glossed c).of_ok built
  obtain ⟨-, rfl, defined⟩ := (outcome_ofExcept grown.wellFormed).of_ok added
  obtain ⟨unknown, rfl⟩ := define_eq_ok_iff.1 defined
  exact ⟨h, _, t, declarable, built, unknown, grown, .cons ⟨rfl, stands⟩ (glossed.grow grown), rest⟩

/-- A clause that is built gives way to the others. -/
theorem buildClauses_cons {c : Clause} {h : Handle} (declarable : checkIdentifier c.name = .ok ())
    (built : c.build pool scope w = .ok h w₁) (new : scope.get? c.name = none) (more : List Clause) :
    Document.buildClauses pool scope (c :: more) w =
      Document.buildClauses pool ⟨(c.name, h) :: scope.names⟩ more w₁ := by
  have defined : scope.define c.name h = .ok ⟨(c.name, h) :: scope.names⟩ :=
    define_eq_ok_iff.2 ⟨new, rfl⟩
  rw [Document.buildClauses, declarable]
  show (c.build pool scope >>= _) w = _
  rw [bind_ok built, defined]
  rfl

theorem buildDefinition_inline {later : Definition} {h : Handle} (wf : w.WellFormed)
    (hpool : pool < w.pools.size) (glossed : Glossed w pool scope g) (inlinable : Inlinable w pool scope d)
    (run : (Clause.definition later).build pool scope w = .ok h w') :
    (Clause.definition (d.inlineInto later)).build pool scope w = .ok h w' := by
  refine adaptExcept_ok_iff.2 ?_
  obtain ⟨h₀, w₁, compiled, rest⟩ := bind_eq_ok (adaptExcept_ok_iff.1 run)
  rw [Document.buildDefinition, Definition.inlineInto,
    bind_ok (compile_inline wf hpool glossed inlinable compiled)]
  exact rest

/-- **Later definitions are built as before**, one by one. -/
theorem buildClauses_inline {later : List Definition} (wf : w.WellFormed) (hpool : pool < w.pools.size)
    (glossed : Glossed w pool scope g) (inlinable : Inlinable w pool scope d)
    (run : Document.buildClauses pool scope (later.map .definition) w = .ok scope' w') :
    Document.buildClauses pool scope ((later.map d.inlineInto).map .definition) w = .ok scope' w' ∧
      Inlinable w' pool scope' d := by
  induction later generalizing w scope g with
  | nil =>
    cases run
    exact ⟨rfl, inlinable⟩
  | cons next later ih =>
    obtain ⟨h, w₁, t, declarable, built, new, grown, glossed₁, rest⟩ :=
      exists_of_buildClauses wf hpool glossed run
    obtain ⟨more, last⟩ := ih grown.wellFormed (grown.size_eq ▸ hpool) glossed₁
      (inlinable.later grown (.define new h)) rest
    refine ⟨?_, last⟩
    rw [List.map_cons, List.map_cons,
      buildClauses_cons (c := .definition (d.inlineInto next)) declarable
        (buildDefinition_inline wf hpool glossed inlinable built) new]
    exact more

/-- **A definition that was built can be written in place**, unless it is a bare number. -/
theorem inlinable_of_build {h : Handle} (wf : w.WellFormed) (hpool : pool < w.pools.size)
    (glossed : Glossed w pool scope g)
    (operand : d.varying = true ∨ ∀ v, parse d.source ≠ .ok (.numeral v))
    (new : scope.get? d.name = none) (run : (Clause.definition d).build pool scope w = .ok h w') :
    Inlinable w' pool ⟨(d.name, h) :: scope.names⟩ d := by
  obtain ⟨h₀, w₁, compiled, rest⟩ := bind_eq_ok (adaptExcept_ok_iff.1 run)
  cases parsed : parse d.source with
  | error f =>
    rw [compile, parsed] at compiled
    cases compiled
  | ok own =>
    rw [compile, parsed] at compiled
    refine ⟨⟨own, parsed⟩, ?_, h, List.lookup_cons_self, ?_⟩
    · rintro value ⟨own', moved, offset, parsed', relocated, rfl⟩
      cases parsed.symm.trans parsed'
      split
      · intro v same
        cases same
      · next plain =>
        refine relocated.ne_numeral (fun _ _ allowed => allowed.elim) fun v same => ?_
        exact operand.resolve_left plain v (by rw [parsed, same])
    · rintro scope' kept value ⟨own', moved, offset, parsed', relocated, rfl⟩
      cases parsed.symm.trans parsed'
      obtain ⟨g₁, t, -, stands⟩ :=
        (outcome_lower wf hpool (glossed.held hpool) own wf.grows_refl).of_ok compiled
      have kept₀ : ScopeKept scope scope' := fun name h' known =>
        kept name h' (ScopeKept.define new h name h' known)
      have inner := lower_settled wf hpool glossed kept₀ relocated wf.grows_refl compiled
      split at rest
      · next interpolated =>
        have hpool₁ : pool < w₁.pools.size := g₁.size_eq ▸ hpool
        obtain ⟨g₂, -⟩ := (outcome_varying g₁.wellFormed hpool₁ stands).of_ok rest
        have arguments : Settled (lowerAll pool scope' [moved]) [h₀] w₁ := by
          rw [lowerAll, lowerAll]
          exact inner.bind ((settled_pure [] w₁).bind (settled_pure [h₀] w₁))
        have top : Settled (apply pool "varying" [h₀]) h w' := by
          rw [apply, if_pos rfl]
          exact (addsNode_varying stands.home).settled hpool₁ rest
        rw [if_pos interpolated, lower]
        exact (arguments.grow g₂).bind top.adapt
      · next plain =>
        cases rest
        rw [if_neg plain]
        exact inner

end Later

end Build

/-! ### Documents -/

namespace Document

/-- The document with one of its definitions, the one with number `n`, written in place of its name in the
later definitions and in the outputs. -/
def inline (doc : Document) (n : Nat) : Document :=
  match doc.definitions[n]? with
  | none => doc
  | some d => { doc with
      definitions := doc.definitions.take (n + 1) ++ (doc.definitions.drop (n + 1)).map d.inlineInto
      position := d.inline doc.position
      colour := d.inline doc.colour }

variable {doc : Document} {n : Nat} {d : Definition} {w w' : Workspace} {pool : Nat} {program : Program}

theorem inline_eq (chosen : doc.definitions[n]? = some d) : doc.inline n = { doc with
    definitions := doc.definitions.take (n + 1) ++ (doc.definitions.drop (n + 1)).map d.inlineInto
    position := d.inline doc.position
    colour := d.inline doc.colour } := by
  rw [inline, chosen]

/-- Both documents have the same clauses up to the definition. -/
theorem exists_clauses (chosen : doc.definitions[n]? = some d) :
    ∃ front, doc.clauses =
        front ++ .definition d :: (doc.definitions.drop (n + 1)).map .definition ∧
      (doc.inline n).clauses =
        front ++ .definition d :: ((doc.definitions.drop (n + 1)).map d.inlineInto).map .definition := by
  have upTo : doc.definitions.take (n + 1) = doc.definitions.take n ++ [d] := by
    rw [List.take_add_one, chosen]
    rfl
  have all : doc.definitions = doc.definitions.take n ++ d :: doc.definitions.drop (n + 1) := by
    rw [List.append_cons, ← upTo, List.take_append_drop]
  refine ⟨doc.attributes.entries.map (fun e => .attribute e.1 e.2) ++
    (doc.uniforms.entries.map (fun e => .uniform e.1 e.2) ++
      (doc.definitions.take n).map .definition), ?_, ?_⟩
  · have mapped := congrArg (List.map Clause.definition) all
    rw [List.map_append, List.map_cons] at mapped
    rw [clauses, mapped, List.append_assoc, List.append_assoc]
  · rw [inline_eq chosen, clauses, upTo]
    simp

open Build in
/-- **A document is built as before with a definition written in place.** -/
theorem build_inline (wf : w.WellFormed) (hpool : pool < w.pools.size)
    (chosen : doc.definitions[n]? = some d)
    (operand : d.varying = true ∨ ∀ v, parse d.source ≠ .ok (.numeral v))
    (run : doc.build pool w = .ok program w') : (doc.inline n).build pool w = .ok program w' := by
  have empty : Glossed w pool .empty [] := .nil
  obtain ⟨front, before, after⟩ := exists_clauses chosen
  rw [build, buildScope_eq, before] at run
  obtain ⟨scope, w₁, named, run⟩ := bind_eq_ok run
  obtain ⟨position, w₂, compiledP, run⟩ := bind_eq_ok run
  obtain ⟨colour, w₃, compiledC, paired⟩ := bind_eq_ok run
  obtain ⟨g₁, g, -, glossed⟩ := (outcome_clauses wf hpool empty _).of_ok named
  have hpool₁ : pool < w₁.pools.size := g₁.size_eq ▸ hpool
  rw [buildClauses_append] at named
  obtain ⟨scope₀, w₀, first, later⟩ := bind_eq_ok named
  obtain ⟨g₀, glossary₀, -, glossed₀⟩ := (outcome_clauses wf hpool empty front).of_ok first
  have hpool₀ : pool < w₀.pools.size := g₀.size_eq ▸ hpool
  obtain ⟨h, w', t, declarable, built, new, grown, glossed', rest⟩ :=
    exists_of_buildClauses g₀.wellFormed hpool₀ glossed₀ later
  have inlinable := inlinable_of_build g₀.wellFormed hpool₀ glossed₀ operand new built
  obtain ⟨rest', inlinable₁⟩ :=
    buildClauses_inline grown.wellFormed (grown.size_eq ▸ hpool₀) glossed' inlinable rest
  have named' : buildClauses pool .empty (doc.inline n).clauses w = .ok scope w₁ := by
    rw [after, buildClauses_append, bind_ok first, buildClauses_cons declarable built new]
    exact rest'
  have compiledP := adaptExcept_ok_iff.1 compiledP
  obtain ⟨g₂, -⟩ := (outcome_compile g₁.wellFormed hpool₁ glossed doc.position).of_ok compiledP
  have inlinedP := compile_inline g₁.wellFormed hpool₁ glossed inlinable₁ compiledP
  have inlinedC := compile_inline g₂.wellFormed (g₂.size_eq ▸ hpool₁) (glossed.grow g₂)
    (inlinable₁.later g₂ (.refl scope)) (adaptExcept_ok_iff.1 compiledC)
  have runP : withinItem (.output .position) (compile pool (doc.inline n).position scope) w₁ =
      .ok position w₂ := by
    rw [inline_eq chosen]
    exact adaptExcept_ok_iff.2 inlinedP
  have runC : withinItem (.output .colour) (compile pool (doc.inline n).colour scope) w₂ =
      .ok colour w₃ := by
    rw [inline_eq chosen]
    exact adaptExcept_ok_iff.2 inlinedC
  rw [build, buildScope_eq, bind_ok named', bind_ok runP, bind_ok runC]
  exact paired

end Document

namespace Session

variable {s : Session} {pool n : Nat} {doc : Document} {program : Program} {w : Workspace} {d : Definition}

/-- What is built in one pool of a session has a meaning, so it is built in every other one as well. -/
theorem Reachable.exists_build {g : Glossary} {position colour : Tree} (reachable : s.Reachable)
    (here : s.HasPool pool) (means : doc.Means g position colour) :
    ∃ program w, doc.build pool s.workspace = .ok program w ∧ s.workspace.Grows w ∧ program.pool = pool ∧
      (w.pool pool).tree? program.position = some position ∧
      (w.pool pool).tree? program.colour = some colour := by
  have outcome := Build.outcome_document doc reachable.valid.wellFormed here
  cases run : doc.build pool s.workspace with
  | ok program w =>
    obtain ⟨grown, home, g', position', colour', means', hp, hc⟩ := outcome.of_ok run
    obtain ⟨rfl, rfl⟩ := means.trees_eq means' (fun _ mem => mem) ⟨rfl, rfl⟩
    exact ⟨program, w, rfl, grown, home, hp, hc⟩
  | error f w => exact absurd ⟨g, position, colour, means⟩ (outcome.of_error run)

/-- **Definitions are transparent.**  In a document that is built, a definition whose text is no bare number
is written in place of its name, wherever the later definitions and the outputs use it as a variable.  The
new document is built from the same state into the same program and the same workspace.  In every pool of
every reachable session both documents are built, into one program, and its outputs are the same trees as
before; in the same pool, later on, they are the same nodes. -/
theorem Reachable.inline_builds (reachable : s.Reachable) (here : s.HasPool pool)
    (built : doc.build pool s.workspace = .ok program w) (chosen : doc.definitions[n]? = some d)
    (operand : d.varying = true ∨ ∀ v, parse d.source ≠ .ok (.numeral v)) :
    (doc.inline n).build pool s.workspace = .ok program w ∧
    ∃ position colour, (w.pool pool).tree? program.position = some position ∧
      (w.pool pool).tree? program.colour = some colour ∧
      ∀ (t : Session) (pool' : Nat), t.Reachable → t.HasPool pool' →
        ∃ program' w', doc.build pool' t.workspace = .ok program' w' ∧
          (doc.inline n).build pool' t.workspace = .ok program' w' ∧
          (w'.pool pool').tree? program'.position = some position ∧
          (w'.pool pool').tree? program'.colour = some colour ∧
          (pool' = pool → w.Grows t.workspace → program' = program) := by
  obtain ⟨-, home, g, position, colour, means, hp, hc⟩ := reachable.means_of_build here built
  refine ⟨doc.build_inline reachable.valid.wellFormed here chosen operand built, position, colour, hp, hc, ?_⟩
  intro t pool' reachable' here'
  obtain ⟨program', w', built', grown', home', hp', hc'⟩ := reachable'.exists_build here' means
  refine ⟨program', w', built',
    doc.build_inline reachable'.valid.wellFormed here' chosen operand built', hp', hc', ?_⟩
  -- a tree has one node in a pool
  rintro rfl later
  have kept := (later.trans grown').kept pool'
  have wf := grown'.wellFormed pool'
  have samePosition := wf.tree_injective hp' (kept.tree?_eq hp)
  have sameColour := wf.tree_injective hc' (kept.tree?_eq hc)
  cases program
  cases program'
  cases home
  cases home'
  cases samePosition
  cases sameColour
  rfl

/-- The second definition of the lamp is a product, so it can be written in place of its name. -/
theorem lamp_inlined : ∃ program w,
    Document.lamp.build 0 (start 1).workspace = .ok program w ∧
    (Document.lamp.inline 1).build 0 (start 1).workspace = .ok program w ∧
    (Document.lamp.inline 1).colour = "glow + 2.0*(tint * 0.5)" := by
  obtain ⟨program, w, built⟩ := Document.exists_of_isBuilt Document.isBuilt_lamp
  have operand : ∀ v, parse "tint * 0.5" ≠ .ok (.numeral v) := by
    intro v same
    have parts : (parse "tint * 0.5").toOption.map (·.parts.length) = some 3 := by decide +kernel
    rw [same] at parts
    exact absurd parts (by simp [Except.toOption, Expression.parts])
  have inlined := (reachable_start 1).inline_builds (n := 1) hasPool_start built rfl (.inr operand)
  exact ⟨program, w, built, inlined.1, by decide +kernel⟩

end Session

end ShaderDag
