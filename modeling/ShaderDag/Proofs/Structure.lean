import ShaderDag.Proofs.Assembly
import ShaderDag.Proofs.Twin

/-!
# Source depends on trees only

Every step of assembly treats twins alike: they get the same names and the same terms, so the two runs
write the same source or fail with the same failure.

* `Binder.Alike` — binders in which twins have the same names;
* `Pool.term_twin`, `Hoists.twin`, `Pool.StageOf.twin` — terms, locals and stages of twins;
* `Pool.assemble_twin` — the source of twins;
* `Program.assemble_eq_of_tree_eq` — programs with the same trees have the same source.
-/

namespace ShaderDag

variable {p q : Pool} {a b : Nat} {names names' : Binder}

/-! ### Binders -/

namespace Binder

/-- The same names are in use, and twins have the same names. -/
structure Alike (p q : Pool) (names names' : Binder) : Prop where
  used : names.used = names'.used
  nextSuffix : names.nextSuffix = names'.nextSuffix
  bound : List.Forall₂ (TwinWith p q) names.bound names'.bound

theorem alike_withReserved (p q : Pool) : Alike p q withReserved withReserved := ⟨rfl, rfl, .nil⟩

namespace Alike

theorem withName (h : Alike p q names names') (twin : Pool.Twin p q a b) (name : String) :
    Alike p q (names.withName a name) (names'.withName b name) :=
  ⟨congrArg (name :: ·) h.used, h.nextSuffix, .cons ⟨twin, rfl⟩ h.bound⟩

/-- A free name is made from the names in use alone. -/
theorem uniqueName (h : Alike p q names names') (base : String) :
    (names.uniqueName base).1 = (names'.uniqueName base).1 ∧
      Alike p q (names.uniqueName base).2 (names'.uniqueName base).2 := by
  have suffix : names.freeSuffix base (names.firstSuffix base) =
      names'.freeSuffix base (names'.firstSuffix base) := by
    simp only [freeSuffix, firstSuffix, isUsed, h.used, h.nextSuffix]
  have taken : names.isUsed base = names'.isUsed base := by rw [isUsed, isUsed, h.used]
  simp only [Binder.uniqueName, taken, suffix]
  split
  · exact ⟨rfl, h.used, by rw [h.nextSuffix], h.bound⟩
  · exact ⟨rfl, h⟩

/-- A node without a name and its twin get the name together, or the same failure. -/
theorem bind (h : Alike p q names names') (name : String) (free : names.nameOf? a = none)
    (free' : names'.nameOf? b = none) :
    (names.bind a name = .ok (names.withName a name) ∧
      names'.bind b name = .ok (names'.withName b name)) ∨
    ∃ f, names.bind a name = .error f ∧ names'.bind b name = .error f := by
  have taken : names.isUsed name = names'.isUsed name := by rw [isUsed, isUsed, h.used]
  rw [bind_eq, bind_eq, free, free', ← taken]
  cases checkIdentifier name with
  | error f => exact .inr ⟨f, rfl, rfl⟩
  | ok _ =>
    cases names.isUsed name with
    | true => exact .inr ⟨_, rfl, rfl⟩
    | false => exact .inl ⟨rfl, rfl⟩

variable (wp : p.WellFormed) (wq : q.WellFormed)

include wp wq

theorem nameOf?_eq (h : Alike p q names names') (twin : Pool.Twin p q a b) :
    names.nameOf? a = names'.nameOf? b := lookup_twin wp wq twin h.bound

/-- Many nodes without names and their twins get the names together, or the same failure. -/
theorem bindAll {entries entries' : List (Nat × String)} (h : Alike p q names names')
    (all : List.Forall₂ (TwinWith p q) entries entries')
    (free : ∀ entry ∈ entries, names.nameOf? entry.1 = none) (distinct : (entries.map (·.1)).Nodup) :
    (∃ c c', names.bindAll entries = .ok c ∧ names'.bindAll entries' = .ok c' ∧ Alike p q c c') ∨
    ∃ f, names.bindAll entries = .error f ∧ names'.bindAll entries' = .error f := by
  induction all generalizing names names' with
  | nil => exact .inl ⟨names, names', rfl, rfl, h⟩
  | @cons x y entries entries' first _ ih =>
    obtain ⟨a, name⟩ := x
    obtain ⟨b, name'⟩ := y
    obtain ⟨twin, rfl⟩ : Pool.Twin p q a b ∧ name = name' := first
    rw [List.map_cons, List.nodup_cons] at distinct
    have here : names.nameOf? a = none := free _ List.mem_cons_self
    have here' : names'.nameOf? b = none := h.nameOf?_eq wp wq twin ▸ here
    rw [bindAll_cons, bindAll_cons]
    rcases h.bind name here here' with ⟨run, run'⟩ | ⟨f, run, run'⟩
    · rw [run, run']
      refine ih (h.withName twin name) (fun entry mem => ?_) distinct.2
      have other : entry.1 ≠ a := fun same => distinct.1 (List.mem_map.2 ⟨entry, mem, same⟩)
      rw [nameOf?_withName, if_neg other]
      exact free entry (List.mem_cons_of_mem _ mem)
    · rw [run, run']
      exact .inr ⟨f, rfl, rfl⟩

end Alike

end Binder

section Assembly

variable (wp : p.WellFormed) (wq : q.WellFormed)

include wp wq

/-- The inputs of twins get the same names, or the same failure. -/
theorem Pool.twin_bind {roots roots' : List Nat} (all : List.Forall₂ (Twin p q) roots roots') :
    (∃ c c', (p.inputs roots).bind = .ok c ∧ (q.inputs roots').bind = .ok c' ∧
      Binder.Alike p q c c') ∨
    ∃ f, (p.inputs roots).bind = .error f ∧ (q.inputs roots').bind = .error f :=
  (Binder.alike_withReserved p q).bindAll wp wq
    (List.rel_append (twin_callerNames wp wq all) (twin_varyingNames wp wq all)) (fun _ _ => rfl)
    (nodup_input_keys p roots)

/-! ### Terms and locals -/

/-- Twins have the same term. -/
theorem Pool.term_twin {roots : List Nat} {t : Term} (alike : Binder.Alike p q names names')
    (covers : p.Covers names roots) (mem : p.InStage roots a) (twin : Twin p q a b)
    (written : p.term names a = .ok t) : q.term names' b = .ok t := by
  have bound : ∀ c text, p.InStage roots c → names.nameOf? c = some text →
      ∀ d, Twin p q c d → q.term names' d = .ok (.name text) := by
    intro c text _ hn d twin
    exact term_bound (alike.nameOf?_eq wp wq twin ▸ hn)
  refine covers.term_holds (motive := fun c t => ∀ d, Twin p q c d → q.term names' d = .ok t) wp bound
    (fun c e m he operation free same children d twin => ?_) mem written b twin
  obtain ⟨e', f, z, he', hf, kinds, left, right, twins, -, below⟩ := twin.node
  rw [he] at he'
  cases he'
  -- the children of the twin, each with the term of its own twin
  obtain ⟨w, rfl, rfl, agree⟩ := Node.exists_zip (f := Prod.fst) (g := Prod.fst) (n := m) (k := z)
    (same.symm.trans left)
  have written : ∀ x ∈ (w.map fun y => (y.2.2, y.1.2)).children, q.term names' x.1 = .ok x.2 := by
    intro x hx
    obtain ⟨y, hy, rfl⟩ := Node.mem_children_map.1 hx
    have child := (children y.1 (Node.mem_children_map.2 ⟨y, hy, rfl⟩)).2.2
    refine child y.2.2 ?_
    rw [agree y hy]
    exact twins y.2 (Node.mem_children_map.2 ⟨y, hy, rfl⟩)
  have shape : f.node.isInput = false := by
    simpa [left, right] using operation
  have run := term_unbound (alike.nameOf?_eq wp wq twin ▸ free) hf below shape
    (by rw [right, Node.map_map, Node.map_map]; rfl) written
  rw [run, kinds, Node.map_map, Node.map_map]
  rfl

/-- Locals of twins are defined by the same statements. -/
theorem Hoists.twin {ids ids' roots : List Nat} {defs : List Statement} {last : Binder}
    (h : Hoists p names ids defs last) (alike : Binder.Alike p q names names')
    (covers : p.Covers names roots) (inStage : ∀ id ∈ ids, p.InStage roots id)
    (all : List.Forall₂ (Pool.Twin p q) ids ids') :
    ∃ last', Hoists q names' ids' defs last' ∧ Binder.Alike p q last last' := by
  induction h generalizing names' ids' with
  | done names =>
    cases all
    exact ⟨names', .done names', alike⟩
  | @define names names₁ last id ids name value defs fresh written bound _ ih =>
    cases all with
    | @cons _ id' _ ids' twin rest =>
      obtain ⟨covers₁, covers₂⟩ := covers_define covers fresh bound
      obtain ⟨same, alike₁⟩ := alike.uniqueName (p.kind id).name
      rw [fresh] at same alike₁
      obtain ⟨name', names₁', fresh'⟩ : ∃ name' names₁',
        names'.uniqueName (p.kind id).name = (name', names₁') := ⟨_, _, rfl⟩
      rw [fresh'] at same alike₁
      obtain rfl : name = name' := same
      obtain ⟨-, unbound, -, -⟩ := Binder.bind_eq_ok_iff.1 bound
      have unbound' : names₁'.nameOf? id' = none := alike₁.nameOf?_eq wp wq twin ▸ unbound
      have bound' : names₁'.bind id' name = .ok (names₁'.withName id' name) := by
        rcases alike₁.bind name unbound unbound' with ⟨-, run⟩ | ⟨f, run, -⟩
        · exact run
        · rw [bound] at run
          cases run
      have written' := Pool.term_twin wp wq alike₁ covers₁ (inStage id List.mem_cons_self) twin written
      obtain ⟨last', rest', alike'⟩ := ih (alike₁.withName twin name) covers₂
        (fun c hc => inStage c (List.mem_cons_of_mem _ hc)) rest
      rw [twin.kind_eq] at fresh' ⊢
      exact ⟨last', .define fresh' written' bound' rest', alike'⟩

/-! ### Stages -/

/-- Twins that are assigned to the same name, or declared with the same storage. -/
def TwinAt {β : Type} (p q : Pool) (x y : β × Nat) : Prop := x.1 = y.1 ∧ Pool.Twin p q x.2 y.2

theorem Pool.StageBody.twin {assignments assignments' : List (String × Nat)}
    {body defs outputs : List Statement} {last : Binder} (alike : Binder.Alike p q names names')
    (all : List.Forall₂ (TwinAt p q) assignments assignments')
    (covers : p.Covers names (assignments.map (·.2)))
    (h : p.StageBody names assignments body defs outputs last) :
    ∃ last', q.StageBody names' assignments' body defs outputs last' := by
  have roots : List.Forall₂ (Twin p q) (assignments.map (·.2)) (assignments'.map (·.2)) :=
    List.rel_map (R := TwinAt p q) (fun _ _ twin => twin.2) all
  have unbound : ∀ a b, Twin p q a b → (!names.isBound a) = !names'.isBound b := fun a b twin => by
    rw [Binder.isBound, Binder.isBound, alike.nameOf?_eq wp wq twin]
  have hoisted := Occurrences.twin_shared wp wq unbound roots
  obtain ⟨last', defs', alike'⟩ := h.defs.twin wp wq alike covers
    (fun id mem => (covers.hoisted mem).1) hoisted
  refine ⟨last', h.body_eq, defs', ?_⟩
  have covers' := covers.mono fun id name hn => h.defs.nameOf?_mono hn
  have inStage : ∀ x ∈ assignments, p.InStage (assignments.map (·.2)) x.2 := fun x hx =>
    inStage_root (List.mem_map_of_mem hx)
  refine forall₂_of_forall₂ all ((List.forall₂_and_left _ _).2 ⟨inStage, h.outputs⟩) ?_
  rintro x y statement twin ⟨mem, value, written, rfl⟩
  exact ⟨value, term_twin wp wq alike' covers' mem twin.2 written, by rw [twin.1]⟩

theorem Pool.twin_declared {roots roots' read read' : List Nat} (precision : Precision)
    (all : List.Forall₂ (Twin p q) roots roots')
    (same : ∀ a b, Twin p q a b → read.contains a = read'.contains b) :
    List.Forall₂ (TwinAt p q) (p.declared roots precision read) (q.declared roots' precision read') := by
  have ids : ∀ {l l' : List (Nat × String)}, List.Forall₂ (TwinWith p q) l l' →
      List.Forall₂ (Twin p q) ((l.map (·.1)).filter read.contains) ((l'.map (·.1)).filter read'.contains) :=
    fun h => List.rel_filter (fun a b twin => Bool.eq_iff_iff.1 (same a b twin))
      (List.rel_map (R := TwinWith p q) (fun _ _ twin => twin.1) h)
  refine List.rel_append (List.rel_append ?_ ?_) ?_
  · exact List.rel_map (R := Twin p q) (fun _ _ twin => ⟨rfl, twin⟩) (ids (twin_attributes wp wq all))
  · exact List.rel_map (R := Twin p q) (fun _ _ twin => ⟨by rw [twin.kind_eq], twin⟩)
      (ids (twin_uniforms wp wq all))
  · exact List.rel_map (fun _ _ twin => ⟨rfl, twin.1⟩) (twin_varyings wp wq all)

/-- **Stages of twins are the same.** -/
theorem Pool.StageOf.twin {roots roots' : List Nat} {precision : Precision}
    {assignments assignments' : List (String × Nat)} {stage : Stage}
    (h : p.StageOf roots names precision assignments stage) (alike : Binder.Alike p q names names')
    (top : List.Forall₂ (Twin p q) roots roots')
    (all : List.Forall₂ (TwinAt p q) assignments assignments') :
    q.StageOf roots' names' precision assignments' stage := by
  have ends : List.Forall₂ (Twin p q) (assignments.map (·.2)) (assignments'.map (·.2)) :=
    List.rel_map (R := TwinAt p q) (fun _ _ twin => twin.2) all
  refine ⟨⟨?_, ?_⟩, ?_, ?_⟩
  · intro r hr
    obtain ⟨r', -, t, -, ht⟩ := exists_of_forall₂_right ends hr
    exact tree?_lt ht
  · intro b mem input
    obtain ⟨a, twin, mem'⟩ := mem.exists_twin (Twin.flip_all ends)
    rw [twin.isInput_eq] at input
    obtain ⟨name, hn⟩ := h.covers.inputs a mem' input
    exact ⟨name, alike.nameOf?_eq wp wq twin.symm ▸ hn⟩
  · obtain ⟨defs, outputs, last, body⟩ := h.body
    obtain ⟨last', body'⟩ := body.twin wp wq alike all h.covers
    exact ⟨defs, outputs, last', body'⟩
  · have listed := twin_declared wp wq precision top fun a b twin =>
      twin.contains_stageInputs wp wq ends
    refine forall₂_of_forall₂ listed h.declarations fun x y d twin declares => ⟨?_, ?_, ?_⟩
    · rw [declares.storage, twin.1]
    · rw [declares.kind, twin.2.kind_eq]
    · rw [← alike.nameOf?_eq wp wq twin.2, declares.name]

/-! ### Programs -/

namespace Pool

variable {position colour position' colour' : Nat} (hp : Twin p q position position')
  (hc : Twin p q colour colour')

include hp hc

omit wp wq in
theorem twin_roots : List.Forall₂ (Twin p q) [position, colour] [position', colour'] :=
  .cons hp (.cons hc .nil)

theorem twin_vertexRoots :
    List.Forall₂ (Twin p q) (p.vertexRoots position colour) (q.vertexRoots position' colour') := by
  refine List.rel_append ?_ (.cons hp .nil)
  exact List.rel_map (fun _ _ twin => twin.2) (twin_varyings wp wq (twin_roots hp hc))

theorem twin_strayVarying : Option.Rel (fun x y => Twin p q x.1 y.1 ∧ Twin p q x.2 y.2)
    (p.strayVarying? position colour) (q.strayVarying? position' colour') :=
  rel_find? (twin_varyings wp wq (twin_roots hp hc)) fun _ _ twin =>
    twin.1.contains_stageInputs wp wq (twin_vertexRoots wp wq hp hc)

theorem twin_strayAttribute : Option.Rel (TwinWith p q) (p.strayAttribute? position colour)
    (q.strayAttribute? position' colour') :=
  rel_find? (twin_attributes wp wq (twin_roots hp hc)) fun _ _ twin =>
    twin.1.contains_stageInputs wp wq (.cons hc .nil)

/-- The source of twins. -/
theorem Assembled.twin {options : Options} {varyings : List (String × Nat)} {pair : ShaderPair}
    (h : p.Assembled position colour options names varyings pair)
    (alike : Binder.Alike p q names names') (named : q.Named [position', colour'] names') :
    ∃ varyings', q.Assembled position' colour' options names' varyings' pair := by
  have top := twin_roots hp hc
  obtain ⟨varyings', outputs'⟩ := exists_outputs named
  have joined : List.Forall₂ (fun y out => names'.nameOf? y.1 = some out.1 ∧ Twin p q out.2 y.2)
      (q.inputs [position', colour']).varyings varyings := by
    refine forall₂_of_forall₂ (twin_varyings wp wq top) h.outputs ?_
    rintro x y ⟨text, root⟩ twin ⟨hn, rfl⟩
    exact ⟨alike.nameOf?_eq wp wq twin.1 ▸ hn, twin.2⟩
  have assigned : List.Forall₂ (TwinAt p q) varyings varyings' := by
    refine forall₂_of_forall₂ joined outputs' ?_
    rintro y out ⟨text, root⟩ ⟨hn, twin⟩ ⟨hn', rfl⟩
    rw [hn, Option.some.injEq] at hn'
    exact ⟨hn', twin⟩
  have noVarying : q.strayVarying? position' colour' = none := by
    have rel := twin_strayVarying wp wq hp hc
    rw [strayVarying?_eq_none_iff.2 h.varyingsApart] at rel
    exact eq_none_of_rel rel
  have noAttribute : q.strayAttribute? position' colour' = none := by
    have rel := twin_strayAttribute wp wq hp hc
    rw [strayAttribute?_eq_none_iff.2 h.attributesApart] at rel
    exact eq_none_of_rel rel
  refine ⟨varyings', named, strayVarying?_eq_none_iff.1 noVarying,
    strayAttribute?_eq_none_iff.1 noAttribute, outputs', ?_, ?_, h.headers⟩
  · exact h.vertex.twin wp wq alike top (List.rel_append assigned (.cons ⟨rfl, hp⟩ .nil))
  · exact h.fragment.twin wp wq alike top (.cons ⟨rfl, hc⟩ .nil)

/-- **Twins have the same source, or the same failure.**  The four outcomes are the same on both sides:
the names are refused alike, the same input is in the wrong stage, or both stages are the same. -/
theorem assemble_twin (options : Options) :
    p.assemble position colour options = q.assemble position' colour' options := by
  have present : ∀ r ∈ [position, colour], r < p.size := by
    intro r hr
    obtain ⟨r', -, t, ht, -⟩ := exists_of_forall₂_left (twin_roots hp hc) hr
    exact tree?_lt ht
  rcases p.assemble_cases wp present options with ⟨f, refused, run⟩ | ⟨names, bound, rest⟩
  · rcases twin_bind wp wq (twin_roots hp hc) with ⟨c, c', ok, -, -⟩ | ⟨g, refused', right⟩
    · rw [refused] at ok
      cases ok
    · rw [refused] at refused'
      cases refused'
      rw [run, assemble_of_bind_error right]
  rcases twin_bind wp wq (twin_roots hp hc) with ⟨c, names', ok, bound', alike⟩ | ⟨g, refused, -⟩
  swap
  · rw [bound] at refused
    cases refused
  rw [bound] at ok
  cases ok
  have varyings := twin_strayVarying wp wq hp hc
  have attributes := twin_strayAttribute wp wq hp hc
  rcases rest with ⟨entry, text, stray, hn, run⟩ | ⟨noVarying, rest⟩
  · rw [stray] at varyings
    obtain ⟨entry', stray', twin⟩ := exists_of_rel varyings
    rw [run, assemble_of_strayVarying bound' stray' (alike.nameOf?_eq wp wq twin.1 ▸ hn)]
  have noVarying' : q.strayVarying? position' colour' = none := by
    rw [noVarying] at varyings
    exact eq_none_of_rel varyings
  rcases rest with ⟨entry, text, stray, hn, run⟩ | ⟨noAttribute, outs, pair, assembled, run⟩
  · rw [stray] at attributes
    obtain ⟨entry', stray', twin⟩ := exists_of_rel attributes
    rw [run, assemble_of_strayAttribute bound' noVarying' stray' (alike.nameOf?_eq wp wq twin.1 ▸ hn)]
  · obtain ⟨outs', assembled'⟩ := assembled.twin wp wq hp hc alike (named_of_bind bound')
    rw [run, assemble_of_clear bound' assembled']

end Pool

end Assembly

namespace Program

variable {s t : Session} {program program' : Program}

/-- **Source depends on trees only.**  Two programs, each of any session, whose positions are one tree and
whose colours are one tree have the same source or fail with the same failure, whatever else the pools
hold and in whatever order it was added. -/
theorem assemble_eq_of_tree_eq {position colour : Tree} (reachable : s.Reachable)
    (reachable' : t.Reachable)
    (hp : (s.workspace.pool program.pool).tree? program.position = some position)
    (hp' : (t.workspace.pool program'.pool).tree? program'.position = some position)
    (hc : (s.workspace.pool program.pool).tree? program.colour = some colour)
    (hc' : (t.workspace.pool program'.pool).tree? program'.colour = some colour) (options : Options) :
    program.assemble s.workspace options = program'.assemble t.workspace options :=
  Pool.assemble_twin (reachable.valid.wellFormed program.pool)
    (reachable'.valid.wellFormed program'.pool) ⟨position, hp, hp'⟩ ⟨colour, hc, hc'⟩ options

end Program

/-- The position of the example session: an attribute. -/
def Tree.corner : Tree := .node .vec4 (.attribute "corner")

/-- The colour of the example session: the square of twice the interpolated attribute. -/
def Tree.square : Tree :=
  let sum := node .vec4 (.operator .add (.node .vec4 (.varying corner)) (.node .vec4 (.varying corner)))
  .node .vec4 (.operator .mul sum sum)

namespace Pool

theorem extends_withNode (p : Pool) (kind : Kind) (node : Node Nat) : p.Extends (p.withNode kind node) :=
  p.extends_push _

theorem tree?_withNode (p : Pool) (kind : Kind) (node : Node Nat) (operation : Node Tree)
    (h : node.map p.tree? = operation.map some) :
    (p.withNode kind node).tree? p.size = some (.node kind operation) := by
  have known : ∀ c ∈ node.children, ∃ t, p.tree? c = some t := by
    intro c hc
    obtain ⟨t, -, ht⟩ := Node.exists_partner h hc
    exact ⟨t, ht.symm⟩
  refine tree?_eq_some_iff.2 ⟨⟨kind, node, Node.digest kind (node.map p.digest)⟩, ?_, ?_, ?_, rfl⟩
  · rw [withNode, entry?_push, if_pos rfl]
  · intro c hc
    obtain ⟨t, ht⟩ := known c hc
    exact tree?_lt ht
  · rw [← h]
    refine Node.map_congr fun c hc => ?_
    obtain ⟨t, ht⟩ := known c hc
    rw [ht, (p.extends_withNode kind node).tree?_eq ht]

/-- The trees of the example session do not depend on the nodes before them. -/
theorem tree?_sample (base : Pool) :
    base.sample.tree? base.size = some Tree.corner ∧
      base.sample.tree? (base.size + 3) = some Tree.square := by
  have first : (base.withNode .vec4 (.attribute "corner")).tree? base.size = some Tree.corner :=
    tree?_withNode base .vec4 (.attribute "corner") (.attribute "corner") rfl
  have second := tree?_withNode (base.withNode .vec4 (.attribute "corner")) .vec4 (.varying base.size)
    (.varying _) (by rw [Node.map, first]; rfl)
  rw [size_withNode] at second
  have third := tree?_withNode _ .vec4 (.operator .add (base.size + 1) (base.size + 1))
    (.operator .add _ _) (by rw [Node.map, second]; rfl)
  simp only [size_withNode] at third
  have fourth := tree?_withNode _ .vec4 (.operator .mul (base.size + 2) (base.size + 2))
    (.operator .mul _ _) (by rw [Node.map, third]; rfl)
  simp only [size_withNode] at fourth
  refine ⟨?_, fourth⟩
  refine Extends.tree?_eq ?_ first
  exact ((extends_withNode _ _ _).trans (extends_withNode _ _ _)).trans (extends_withNode _ _ _)

end Pool

/-- In a pool that holds a uniform before, the program of the example session has other numbers and the
same source. -/
theorem Program.sample_eq_of_tree_eq :
    Program.assemble ⟨0, 0, 3⟩ (Session.sample .empty []).workspace .standard =
      Program.assemble ⟨0, 1, 4⟩
        (Session.sample (Pool.empty.withNode .float (.uniform "spare")) [⟨0, 0, .float⟩]).workspace
        .standard := by
  have spare : Session.Reachable ⟨⟨#[Pool.empty.withNode .float (.uniform "spare")]⟩,
      [⟨0, 0, .float⟩], []⟩ :=
    Session.Reachable.handle (s := Session.start 1) ⟨1, .refl⟩ (.addUniform "spare" .float Nat.one_pos)
      (Build.intern_new (by decide +kernel))
  have left : (Pool.sample .empty).tree? 0 = some .corner ∧
      (Pool.sample .empty).tree? 3 = some .square := Pool.tree?_sample .empty
  have right : (Pool.sample (Pool.empty.withNode .float (.uniform "spare"))).tree? 1 = some .corner ∧
      (Pool.sample (Pool.empty.withNode .float (.uniform "spare"))).tree? 4 = some .square :=
    Pool.tree?_sample (Pool.empty.withNode .float (.uniform "spare"))
  have moved : (Session.sample (Pool.empty.withNode .float (.uniform "spare"))
      [⟨0, 0, .float⟩]).Reachable := Session.reachable_sample spare (by decide +kernel)
  exact @assemble_eq_of_tree_eq _ _ ⟨0, 0, 3⟩ ⟨0, 1, 4⟩ _ _ Session.reachable_sample_empty moved left.1
    right.1 left.2 right.2 .standard

end ShaderDag
