import ShaderDag.Proofs.Layout

/-!
# Source is made of lines

Every stage that is assembled is a text of the forms of a `Layout`: whatever the names of attributes and
uniforms are, those that get into the text went through the binder, and no line end gets into a line.

* `Term.phrase`, `Statement.assignment`, `Stage.layout` — terms, statements and stages taken apart;
* `Stage.spells` — a stage whose names are identifiers, and whose applications have arguments, is made up by
  its layout;
* `Pool.Covers.spelled_term`, `Hoists.spelled` — the terms and the locals of a stage are such;
* `Program.assemble_layout` — the statement about both stages of a program.
-/

namespace ShaderDag

/-! ### Terms taken apart -/

namespace Term

mutual

/-- A term taken apart. -/
def phrase : Term → Phrase
  | .name text => .name text
  | .literal value => .literal value.text
  | .operator op lhs rhs => .operator op.symbol lhs.phrase rhs.phrase
  | .apply callee args => .apply callee.name (phraseAll args)

/-- Terms taken apart. -/
def phraseAll : List Term → List Phrase
  | [] => []
  | t :: ts => t.phrase :: phraseAll ts

end

/-- The characters of a term are a value of the grammar. -/
def IsSpelled (t : Term) : Prop := t.phrase.Spelled t.chars

theorem isSpelled_name {text : String} (shape : isIdentifier text = true) : (name text).IsSpelled := by
  rw [IsSpelled, phrase, chars]
  exact .name shape

theorem spelledMore_of_forall {ts : List Term} (all : ∀ t ∈ ts, t.IsSpelled) :
    Phrase.SpelledMore (phraseAll ts) (moreChars ts) := by
  induction ts with
  | nil =>
    rw [phraseAll, moreChars]
    exact .nil
  | cons t ts ih =>
    rw [phraseAll, moreChars]
    exact .cons (all t List.mem_cons_self) (ih fun u hu => all u (List.mem_cons_of_mem t hu))

theorem isSpelled_apply (callee : Callee) {args : List Term} (nonempty : args ≠ [])
    (all : ∀ t ∈ args, t.IsSpelled) : (apply callee args).IsSpelled := by
  match args, nonempty with
  | t :: ts, _ =>
    rw [IsSpelled, phrase, phraseAll, chars]
    exact .apply callee (all t List.mem_cons_self)
      (spelledMore_of_forall fun u hu => all u (List.mem_cons_of_mem t hu))

end Term

/-- A kind that fits an application says that there are arguments. -/
theorem Kind.Fits.nonempty {kind : Kind} {args : List Kind} {node : Node Kind} (fits : kind.Fits node)
    (h : node = .construct args ∨ ∃ function, node = .call function args) : args ≠ [] := by
  rintro rfl
  rcases h with rfl | ⟨function, rfl⟩
  · have accepted : kind.canConstruct [] = true := fits
    revert accepted
    cases kind <;> decide
  · have result : function.result? [] = some kind := fits
    rw [function.result?_nil] at result
    cases result

/-- The term of an operation is spelled if the terms of its children are. -/
theorem Term.isSpelled_ofNode {α : Type} {kind : Kind} {m : Node α} {term : α → Term} {kinds : α → Kind}
    (inner : m.isInput = false) (fits : kind.Fits (m.map kinds))
    (children : ∀ x ∈ m.children, (term x).IsSpelled) : (ofNode kind (m.map term)).IsSpelled := by
  have arguments : ∀ {args : List α}, (∀ x ∈ args, (term x).IsSpelled) →
      ∀ t ∈ args.map term, t.IsSpelled := by
    intro args all t mem
    obtain ⟨x, hx, rfl⟩ := List.mem_map.1 mem
    exact all x hx
  have filled : ∀ {args : List α}, args.map kinds ≠ [] → args.map term ≠ [] := by
    intro args nonempty empty
    rw [List.map_eq_nil_iff] at empty
    exact nonempty (List.map_eq_nil_iff.2 empty)
  match m, inner, fits, children with
  | .operator op l r, _, _, children =>
    rw [Node.map, ofNode, IsSpelled, phrase, chars]
    exact .operator op (children l (by simp [Node.children])) (children r (by simp [Node.children]))
  | .call function args, _, fits, children =>
    exact isSpelled_apply _ (filled (fits.nonempty (.inr ⟨function, rfl⟩))) (arguments children)
  | .construct args, _, fits, children =>
    exact isSpelled_apply _ (filled (fits.nonempty (.inl rfl))) (arguments children)
  | .literal value, _, _, _ =>
    rw [Node.map, ofNode, IsSpelled, phrase, chars]
    exact .literal value

/-! ### Statements and stages taken apart -/

namespace Statement

/-- A statement taken apart. -/
def assignment : Statement → Assignment
  | define kind name value => ⟨some kind, name, value.phrase⟩
  | assign name value => ⟨none, name, value.phrase⟩

/-- The line of a statement is one of the two forms. -/
def IsSpelled (s : Statement) : Prop := s.assignment.Spelled s.text.toList

theorem isSpelled_define (kind : Kind) {name : String} {value : Term} (shape : isIdentifier name = true)
    (h : value.IsSpelled) : (define kind name value).IsSpelled := by
  have line := Assignment.Spelled.define kind shape h
  simpa [IsSpelled, assignment, text, Term.toList_text] using line

theorem isSpelled_assign {name : String} {value : Term} (shape : isIdentifier name = true)
    (h : value.IsSpelled) : (assign name value).IsSpelled := by
  have line := Assignment.Spelled.assign shape h
  simpa [IsSpelled, assignment, text, Term.toList_text] using line

end Statement

/-- A stage taken apart. -/
def Stage.layout (s : Stage) : Layout :=
  ⟨s.version, s.precision, s.declarations, s.body.map Statement.assignment⟩

/-! ### No line end within a line -/

theorem IsWord.no_break {w : List Char} (h : IsWord w) : '\n' ∉ w := fun mem =>
  absurd (h.parts '\n' mem) (by decide)

theorem Constant.no_break (c : Constant) : '\n' ∉ c.text.toList := by
  rcases c.finite_or_division with finite | known
  · obtain ⟨d, ds, same, -, word⟩ := exists_word finite
    rw [same]
    exact word.no_break
  · have all : ∀ text ∈ divisions, '\n' ∉ text.toList := by decide
    exact all c.text known

mutual

theorem Phrase.Spelled.no_break {a : Phrase} {cs : List Char} (h : Spelled a cs) : '\n' ∉ cs := by
  match h with
  | .name shape => exact (isWord_of_isIdentifier shape).no_break
  | .literal value => exact value.no_break
  | .apply callee head tail =>
    have word := (isWord_of_isIdentifier callee.isIdentifier_name).no_break
    simp [word, head.no_break, tail.no_break]
  | .operator op left right =>
    have symbol : '\n' ∉ op.symbol.toList := by cases op <;> decide
    simp [symbol, left.no_break, right.no_break]

theorem Phrase.SpelledMore.no_break {as : List Phrase} {cs : List Char} (h : SpelledMore as cs) :
    '\n' ∉ cs := by
  match h with
  | .nil => simp
  | .cons head tail => simp [head.no_break, tail.no_break]

end

theorem Assignment.Spelled.no_break {a : Assignment} {line : List Char} (h : Spelled a line) :
    '\n' ∉ line := by
  cases h with
  | define kind shape value =>
    have kindWord := (isWord_of_isIdentifier kind.isIdentifier_name).no_break
    simp [kindWord, (isWord_of_isIdentifier shape).no_break, value.no_break]
  | assign shape value => simp [(isWord_of_isIdentifier shape).no_break, value.no_break]

theorem Declaration.no_break {d : Declaration} (declarable : isIdentifier d.name = true) :
    '\n' ∉ d.text.toList := by
  have storage : '\n' ∉ d.storage.text.toList := by
    match d.storage with
    | .attribute | .varying | .uniform none => decide
    | .uniform (some precision) => cases precision <;> decide
  have kind := (isWord_of_isIdentifier d.kind.isIdentifier_name).no_break
  simp [text, storage, kind, (isWord_of_isIdentifier declarable).no_break]

/-- The lines in front of the declarations are those of the layout. -/
theorem Stage.toList_header (s : Stage) : s.header.map String.toList = s.layout.header := by
  obtain ⟨version, precision, _, _⟩ := s
  cases version <;> cases precision <;>
    simp [header, layout, Layout.header, Layout.versionLine, Layout.precisionLine]

theorem Layout.header_no_break (l : Layout) : ∀ line ∈ l.header, '\n' ∉ line := by
  intro line mem
  rcases List.mem_append.1 mem with mem | mem
  · obtain ⟨version, -, rfl⟩ := Option.map_eq_some_iff.1 (Option.mem_toList.1 mem)
    have digits : '\n' ∉ (toString version.toNat).toList := fun mem =>
      absurd (isDigit_of_mem_toString mem) (by decide)
    have label : '\n' ∉ "#version ".toList := by decide
    rw [versionLine, String.toList_append, List.mem_append]
    exact fun mem => mem.elim label digits
  · obtain ⟨precision, -, rfl⟩ := Option.map_eq_some_iff.1 (Option.mem_toList.1 mem)
    cases precision <;> decide

/-- Lines that each have a line end, cut there again; nothing stands behind the last line end. -/
theorem splitOn_lines {lines : List (List Char)} (unbroken : ∀ line ∈ lines, '\n' ∉ line) :
    List.splitOn '\n' (lines.flatMap (· ++ ['\n'])) = lines ++ [[]] := by
  have joined : lines.flatMap (· ++ ['\n']) = ['\n'].intercalate (lines ++ [[]]) := by
    induction lines with
    | nil => rfl
    | cons line lines ih =>
      rw [List.flatMap_cons, ih fun l hl => unbroken l (List.mem_cons_of_mem line hl)]
      cases lines <;> simp [List.intercalate, List.intersperse]
  rw [joined]
  refine List.splitOn_intercalate '\n' (fun line mem => ?_) (by simp)
  rcases List.mem_append.1 mem with mem | mem
  · exact unbroken line mem
  · rw [List.mem_singleton.1 mem]
    simp

/-- **A stage is made up by its layout** if the names in it are identifiers. -/
theorem Stage.spells {s : Stage} (declarable : ∀ d ∈ s.declarations, isIdentifier d.name = true)
    (spelled : ∀ statement ∈ s.body, statement.IsSpelled) : s.layout.Spells s.text := by
  have parts : s.lines.map String.toList = s.layout.header ++ (s.declarations.map (·.text.toList) ++
      ([] :: "void main() \x7b".toList ::
        ((s.body.map (·.text.toList)).map ("    ".toList ++ ·) ++ ["\x7d".toList]))) := by
    rw [← toList_header, lines]
    simp [Function.comp_def]
  have unbroken : ∀ line ∈ s.lines.map String.toList, '\n' ∉ line := by
    intro line mem
    rw [parts] at mem
    simp only [List.mem_append, List.mem_cons, List.mem_map, List.not_mem_nil, or_false] at mem
    rcases mem with mem | ⟨d, hd, rfl⟩ | rfl | rfl | ⟨_, ⟨statement, hs, rfl⟩, rfl⟩ | rfl
    · exact s.layout.header_no_break line mem
    · exact Declaration.no_break (declarable d hd)
    · simp
    · decide
    · have inner := (spelled statement hs).no_break
      simp [inner]
    · decide
  have cut : List.splitOn '\n' s.text.toList = s.lines.map String.toList ++ [[]] := by
    rw [← splitOn_lines unbroken, text, String.toList_join, List.flatMap_map, List.flatMap_map]
    simp
  refine ⟨declarable, s.body.map (·.text.toList), ?_, ?_⟩
  · rw [layout, List.forall₂_map_left_iff, List.forall₂_map_right_iff, List.forall₂_same]
    exact spelled
  · rw [cut, parts]
    simp [layout]

/-! ### What is assembled -/

namespace Pool

variable {p : Pool} {names : Binder} {roots : List Nat} {id : Nat}

/-- The term of a node of a stage is spelled: names come from the binder, and every application has the
arguments that its kind asks for. -/
theorem Covers.spelled_term {t : Term} (wf : p.WellFormed) (sound : names.Sound)
    (covers : p.Covers names roots) (mem : p.InStage roots id) (written : p.term names id = .ok t) :
    t.IsSpelled := by
  refine covers.term_holds (motive := fun _ t => t.IsSpelled) wf
    (fun c name _ hn => Term.isSpelled_name (sound.isIdentifier hn)) ?_ mem written
  intro c e m he operation _ same children
  have fits := wf.kinded c e he
  rw [same, Node.map_map] at fits
  rw [same, Node.isInput_map] at operation
  exact Term.isSpelled_ofNode operation fits fun x hx => (children x hx).2.2

end Pool

/-- The definitions of locals are spelled, by induction over them. -/
theorem Hoists.spelled {p : Pool} {names names' : Binder} {ids roots : List Nat} {defs : List Statement}
    (h : Hoists p names ids defs names') (wf : p.WellFormed) (sound : names.Sound)
    (covers : p.Covers names roots) (inStage : ∀ id ∈ ids, p.InStage roots id) :
    ∀ statement ∈ defs, statement.IsSpelled := by
  induction h with
  | done names => simp
  | @define names names₁ names' id ids name value defs fresh written bound _ ih =>
    obtain ⟨covers₁, covers₂⟩ := covers_define covers fresh bound
    have sound₁ : names₁.Sound := by
      have next := sound.uniqueName (p.kind id).name
      rwa [fresh] at next
    have sound₂ := sound_define sound fresh bound
    have named : (names₁.withName id name).nameOf? id = some name := by
      rw [Binder.nameOf?_define fresh, if_pos rfl]
    rw [List.forall_mem_cons] at inStage ⊢
    refine ⟨?_, ih sound₂ covers₂ inStage.2⟩
    exact Statement.isSpelled_define _ (sound₂.isIdentifier named)
      (covers₁.spelled_term wf sound₁ inStage.1 written)

/-- **A stage of a program is made up by its layout.** -/
theorem Pool.StageOf.spells {p : Pool} {names : Binder} {roots : List Nat} {precision : Precision}
    {assignments : List (String × Nat)} {stage : Stage}
    (h : p.StageOf roots names precision assignments stage) (wf : p.WellFormed) (sound : names.Sound)
    (targets : ∀ a ∈ assignments, isIdentifier a.1 = true) : stage.layout.Spells stage.text := by
  obtain ⟨defs, outputs, names', body⟩ := h.body
  have covers' := h.covers.mono fun id name hn => body.defs.nameOf?_mono hn
  refine Stage.spells (fun d hd => ?_) (fun statement mem => ?_)
  · obtain ⟨input, -, declares⟩ := exists_of_forall₂_right h.declarations hd
    exact sound.isIdentifier declares.name
  · rw [body.body_eq] at mem
    rcases List.mem_append.1 mem with mem | mem
    · exact body.defs.spelled wf sound h.covers (fun id hid => (h.covers.hoisted hid).1) statement mem
    · obtain ⟨a, ha, value, written, rfl⟩ := exists_of_forall₂_right body.outputs mem
      exact Statement.isSpelled_assign (targets a ha) (covers'.spelled_term wf (body.defs.sound sound)
        (inStage_root (List.mem_map_of_mem ha)) written)

namespace Program

variable {s : Session} {program : Program} {options : Options} {pair : ShaderPair}

/-- **No text of the caller gets out of its place.**  Attributes and uniforms of a session may have any
names.  If a program is assembled, then the text of each of its stages, cut at the line ends, consists of the
version line, in the fragment stage the line of the precision, declarations, and statements in the entry
point, all of the forms of a layout; and no other layout makes up the same text. -/
theorem assemble_layout (reachable : s.Reachable) (given : program ∈ s.programs)
    (h : program.assemble s.workspace options = .ok pair) :
    (∃ l : Layout, l.Spells pair.vertex.text ∧ l.version = options.version ∧ l.precision = none ∧
      ∀ l' : Layout, l'.Spells pair.vertex.text → l' = l) ∧
    ∃ l : Layout, l.Spells pair.fragment.text ∧ l.version = options.version ∧
      l.precision = some options.precision ∧ ∀ l' : Layout, l'.Spells pair.fragment.text → l' = l := by
  have wf := reachable.valid.wellFormed program.pool
  obtain ⟨names, varyings, assembled⟩ :=
    Pool.assembled_of_assemble wf (present_of_reachable reachable given) h
  have sound := assembled.named.sound
  obtain ⟨vertexVersion, vertexPrecision, fragmentVersion, fragmentPrecision⟩ := assembled.headers
  have vertexTargets : ∀ a ∈ varyings ++ [("gl_Position", program.position)],
      isIdentifier a.1 = true := by
    intro a mem
    rcases List.mem_append.1 mem with mem | mem
    · obtain ⟨entry, -, named, -⟩ := exists_of_forall₂_right assembled.outputs mem
      exact sound.isIdentifier named
    · rw [List.mem_singleton.1 mem]
      exact show isIdentifier "gl_Position" = true by decide
  have fragmentTargets : ∀ a ∈ [("gl_FragColor", program.colour)], isIdentifier a.1 = true := by
    intro a mem
    rw [List.mem_singleton.1 mem]
    exact show isIdentifier "gl_FragColor" = true by decide
  have vertex := assembled.vertex.spells wf sound vertexTargets
  have fragment := assembled.fragment.spells wf sound fragmentTargets
  exact ⟨⟨_, vertex, vertexVersion, vertexPrecision, fun l' other => other.unique vertex⟩,
    ⟨_, fragment, fragmentVersion, fragmentPrecision, fun l' other => other.unique fragment⟩⟩

/-- The fragment stage of the example session has a local, and one layout. -/
theorem sample_layout :
    ∃ pair, assemble ⟨0, 0, 3⟩ (Session.sample .empty []).workspace .standard = .ok pair ∧
      (∃ l : Layout, l.Spells pair.vertex.text ∧ l.version = none ∧ l.precision = none ∧
        ∀ l' : Layout, l'.Spells pair.vertex.text → l' = l) ∧
      ∃ l : Layout, l.Spells pair.fragment.text ∧ l.version = none ∧ l.precision = some .mediump ∧
        ∀ l' : Layout, l'.Spells pair.fragment.text → l' = l := by
  obtain ⟨pair, h⟩ := sample_assembles
  exact ⟨pair, h, assemble_layout Session.reachable_sample_empty List.mem_cons_self h⟩

end Program

end ShaderDag
