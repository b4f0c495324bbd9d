import Mathlib.Data.List.Lex
import Mathlib.Order.Bounds.Basic
import ShaderDag.Glsl.Printer
import ShaderDag.Proofs.Expansion
import ShaderDag.Proofs.RoundTrip

/-!
# Printing without recursion

A stack of texts and nodes is written one piece at a time.  What comes out is the text that a recursion
over the node would give, unless an input without a name has to be written: then the first one in the
order of the text is reported.

* `Node.source`, `Pool.sourceText` — the text of a node by recursion;
* `Pool.print_node` — a node on a stack is written in full before anything behind it;
* `Pool.emit_eq` — the text of a node is the text of its term;
* `Pool.namelessInputs` — the paths to inputs that would have to be written without a name; their
  lexicographic order is the order in the text;
* `Pool.WellFormed.term_verdict` — the term of a node has its text by recursion, or the first such input
  is reported;
* `Session.Reachable.emit_source` — so it is for printing.
-/

namespace ShaderDag

variable {α β ε : Type}

/-! ### Actions that stop at the first failure -/

/-- A row of actions succeeds as a whole, or stops at the first one that fails. -/
theorem mapM_cases (f : α → Except ε β) (xs : List α) :
    (∃ ys, xs.mapM f = .ok ys ∧ xs.map f = ys.map .ok) ∨
      ∃ (place : Nat) (x : α) (e : ε), xs[place]? = some x ∧ f x = .error e ∧ xs.mapM f = .error e ∧
        ∀ j y, j < place → xs[j]? = some y → ∃ b, f y = .ok b := by
  induction xs with
  | nil => exact .inl ⟨[], rfl, rfl⟩
  | cons x xs ih =>
    cases first : f x with
    | error e =>
      refine .inr ⟨0, x, e, rfl, first, ?_, fun j _ low => absurd low (Nat.not_lt_zero j)⟩
      rw [List.mapM_cons, first]
      rfl
    | ok b =>
      rcases ih with ⟨ys, run, same⟩ | ⟨place, y, e, at_y, failed, run, before⟩
      · refine .inl ⟨b :: ys, ?_, ?_⟩
        · rw [List.mapM_cons, first, run]
          rfl
        · rw [List.map_cons, List.map_cons, first, same]
      · refine .inr ⟨place + 1, y, e, at_y, failed, ?_, fun j z low at_z => ?_⟩
        · rw [List.mapM_cons, first, run]
          rfl
        · cases j with
          | zero =>
            cases at_z
            exact ⟨b, first⟩
          | succ j => exact before j z (Nat.lt_of_succ_lt_succ low) at_z

/-- The three forms of an input. -/
theorem Node.input_cases {n : Node α} (input : n.isInput = true) :
    (∃ inner, n = .varying inner) ∨ (∃ text, n = .attribute text) ∨ ∃ text, n = .uniform text := by
  cases n <;> simp_all [isInput]

/-- The children of a node are taken up from left to right. -/
theorem Node.mapM_cases (f : α → Except ε β) (n : Node α) :
    (∃ m, n.mapM f = .ok m ∧ n.map f = m.map .ok) ∨
      ∃ (place : Nat) (x : α) (e : ε), n.children[place]? = some x ∧ f x = .error e ∧
        n.mapM f = .error e ∧ ∀ j y, j < place → n.children[j]? = some y → ∃ b, f y = .ok b := by
  match n with
  | .operator op l r =>
    cases left : f l with
    | error e =>
      refine .inr ⟨0, l, e, rfl, left, ?_, fun j _ low => absurd low (Nat.not_lt_zero j)⟩
      rw [mapM, left]
      rfl
    | ok a =>
      cases right : f r with
      | error e =>
        refine .inr ⟨1, r, e, rfl, right, ?_, fun j y low at_y => ?_⟩
        · rw [mapM, left, right]
          rfl
        · obtain rfl : j = 0 := Nat.lt_one_iff.1 low
          cases at_y
          exact ⟨a, left⟩
      | ok b =>
        refine .inl ⟨.operator op a b, ?_, ?_⟩
        · rw [mapM, left, right]
          rfl
        · rw [map, map, left, right]
  | .call function args =>
    rcases ShaderDag.mapM_cases f args with ⟨ys, run, same⟩ | ⟨place, x, e, at_x, failed, run, before⟩
    · exact .inl ⟨.call function ys, by rw [mapM, run]; rfl, by rw [map, map, same]⟩
    · exact .inr ⟨place, x, e, at_x, failed, by rw [mapM, run]; rfl, before⟩
  | .construct args =>
    rcases ShaderDag.mapM_cases f args with ⟨ys, run, same⟩ | ⟨place, x, e, at_x, failed, run, before⟩
    · exact .inl ⟨.construct ys, by rw [mapM, run]; rfl, by rw [map, map, same]⟩
    · exact .inr ⟨place, x, e, at_x, failed, by rw [mapM, run]; rfl, before⟩
  | .varying inner =>
    cases below : f inner with
    | error e =>
      refine .inr ⟨0, inner, e, rfl, below, ?_, fun j _ low => absurd low (Nat.not_lt_zero j)⟩
      rw [mapM, below]
      rfl
    | ok b =>
      refine .inl ⟨.varying b, ?_, ?_⟩
      · rw [mapM, below]
        rfl
      · rw [map, map, below]
  | .attribute name => exact .inl ⟨.attribute name, rfl, rfl⟩
  | .uniform name => exact .inl ⟨.uniform name, rfl, rfl⟩
  | .literal value => exact .inl ⟨.literal value, rfl, rfl⟩

/-! ### Texts by recursion -/

/-- The text of an operation whose children are texts.  Inputs are written by name instead, so what
stands here for them is never used. -/
def Node.source (kind : Kind) : Node String → String
  | .operator op lhs rhs => "(" ++ lhs ++ " " ++ op.symbol ++ " " ++ rhs ++ ")"
  | .call function args => function.name ++ "(" ++ ", ".intercalate args ++ ")"
  | .construct args => kind.name ++ "(" ++ ", ".intercalate args ++ ")"
  | .literal value => value.text
  | .varying inner => inner
  | .attribute text | .uniform text => text

/-- The text of a node, by recursion: a node with a name is its name, any other one is the operation on
the texts of its children. -/
def Pool.sourceText (p : Pool) (names : Binder) (id : Nat) : String :=
  match names.nameOf? id with
  | some name => name
  | none =>
    match p.node? id with
    | some n => (n.map fun (c : Fin id) => p.sourceText names c.val).source (p.kind id)
    | none => ""
termination_by id
decreasing_by exact c.isLt

/-- Texts with commas between them: the first one, and the others with a comma in front of each. -/
theorem intercalate_comma (text : String) (texts : List String) :
    ", ".intercalate (text :: texts) = text ++ String.join (texts.map (", " ++ ·)) := by
  induction texts generalizing text with
  | nil => simp
  | cons next texts ih =>
    rw [String.intercalate_cons_cons, ih, List.map_cons, String.join_cons]
    simp only [String.append_assoc]

namespace Term

theorem chars_separated (t : Term) (ts : List Term) :
    t.chars ++ moreChars ts = (", ".intercalate ((t :: ts).map text)).toList := by
  induction ts generalizing t with
  | nil => simp [moreChars, toList_text]
  | cons u ts ih =>
    rw [List.map_cons, List.map_cons, String.intercalate_cons_cons, ← List.map_cons (f := text), moreChars,
      String.toList_append, String.toList_append, toList_text, ← ih]
    simp

@[simp] theorem text_name (text : String) : (name text).text = text :=
  String.toList_injective (toList_text _)

@[simp] theorem text_literal (value : Constant) : (literal value).text = value.text :=
  String.toList_injective (toList_text _)

theorem text_operator (op : Operator) (l r : Term) :
    (operator op l r).text = "(" ++ l.text ++ " " ++ op.symbol ++ " " ++ r.text ++ ")" := by
  refine String.toList_injective ?_
  rw [toList_text, chars]
  simp [String.toList_append, toList_text]

theorem text_apply (callee : Callee) (args : List Term) :
    (apply callee args).text = callee.name ++ "(" ++ ", ".intercalate (args.map text) ++ ")" := by
  refine String.toList_injective ?_
  rw [toList_text]
  cases args with
  | nil => simp [chars, String.toList_append]
  | cons t ts =>
    simp only [String.toList_append, ← chars_separated]
    simp [chars]

/-- The text of an operation on terms is that of the operation on their texts. -/
theorem text_ofNode {kind : Kind} {m : Node Term} (operation : m.isInput = false) :
    (ofNode kind m).text = (m.map text).source kind := by
  match m, operation with
  | .operator op l r, _ => exact text_operator op l r
  | .call function args, _ => exact text_apply (.function function) args
  | .construct args, _ => exact text_apply (.constructor kind) args
  | .literal value, _ => exact text_literal value

end Term

theorem Pending.push_cons (arg place : Nat) (args : List (Nat × Nat)) (stack : List Pending) :
    push ((arg, place) :: args) stack =
      if 0 < place then .text ", " :: .node arg :: push args stack else .node arg :: push args stack := rfl

namespace Pool

variable {p : Pool} {names : Binder} {id : Nat} {out : String} {rest : List Pending}

/-! ### One step of the recursion -/

/-- A node that is there, with its children as places below it. -/
theorem WellFormed.exists_node (wf : p.WellFormed) (present : id < p.size) :
    ∃ n, p.node? id = some n ∧ p.isInput id = n.isInput ∧
      Walk.childList p id = n.children.map Fin.val := by
  obtain ⟨e, he⟩ := exists_entry present
  obtain ⟨n, hn, -⟩ := Pool.exists_node he (wf.descending id e he)
  refine ⟨n, hn, ?_, ?_⟩
  · rw [isInput, hn, Option.any_some]
  · rw [childList_of_node hn, Node.children_map]

/-- What failures say of an input that has to be written and has no name. -/
def reference (p : Pool) (id : Nat) : Unbound :=
  match p.node? id with
  | some (.attribute text) => .attribute text
  | some (.uniform text) => .uniform text
  | some (.varying _) => .varying (p.kind id) id
  | _ => .node id

/-- A node without a name is written as an operation on the terms of its children. -/
theorem term_operation {n : Node (Fin id)} (free : names.nameOf? id = none) (hn : p.node? id = some n)
    (operation : n.isInput = false) :
    p.term names id =
      n.mapM (fun c => p.term names c.val) >>= fun m => .ok (Term.ofNode (p.kind id) m) := by
  rw [term, free]
  simp only [hn]
  match n, operation with
  | .operator op l r, _ => simp only [Node.mapM, bind_assoc, pure_bind]; rfl
  | .call function args, _ => simp only [Node.mapM, bind_assoc, pure_bind]; rfl
  | .construct args, _ => simp only [Node.mapM, bind_assoc, pure_bind]; rfl
  | .literal value, _ => rfl

theorem term_input (free : names.nameOf? id = none) (input : ∀ n, p.node? id = some n → n.isInput = true) :
    p.term names id = .error (.unbound (p.reference id)) := by
  rw [term, free, reference]
  cases hn : p.node? id with
  | none => rfl
  | some n =>
    rcases Node.input_cases (input n hn) with ⟨inner, rfl⟩ | ⟨text, rfl⟩ | ⟨text, rfl⟩
    · rfl
    · rfl
    · rfl

theorem term_of_input {n : Node (Fin id)} (free : names.nameOf? id = none) (hn : p.node? id = some n)
    (input : n.isInput = true) : p.term names id = .error (.unbound (p.reference id)) := by
  refine term_input free fun k hk => ?_
  rw [hn] at hk
  cases hk
  exact input

theorem expand_input (input : ∀ n, p.node? id = some n → n.isInput = true) (rest : List Pending) :
    p.expand id rest = .error (.unbound (p.reference id)) := by
  rw [expand, reference]
  cases hn : p.node? id with
  | none => rfl
  | some n =>
    rcases Node.input_cases (input n hn) with ⟨inner, rfl⟩ | ⟨text, rfl⟩ | ⟨text, rfl⟩
    · rfl
    · rfl
    · rfl

/-! ### The stack -/

theorem print_text (text : String) :
    p.print names out (.text text :: rest) = p.print names (out ++ text) rest := by
  rw [print]

theorem print_named {name : String} (named : names.nameOf? id = some name) :
    p.print names out (.node id :: rest) = p.print names (out ++ name) rest := by
  rw [print, named]

theorem print_expanded {text : String} {stack : List Pending} (free : names.nameOf? id = none)
    (expanded : p.expand id rest = .ok (text, stack)) :
    p.print names out (.node id :: rest) = p.print names (out ++ text) stack := by
  rw [print, free]
  dsimp only
  split
  · next same =>
    rw [expanded] at same
    cases same
    rfl
  · next refused =>
    rw [expanded] at refused
    cases refused

theorem print_refused {f : Failure} (free : names.nameOf? id = none)
    (refused : p.expand id rest = .error f) : p.print names out (.node id :: rest) = .error f := by
  rw [print, free]
  dsimp only
  split
  · next same =>
    rw [refused] at same
    cases same
  · next same =>
    rw [refused] at same
    cases same
    rfl

/-- `p.PrintsAs names id`: a node on top of a stack is written as its term, then comes the rest. -/
def PrintsAs (p : Pool) (names : Binder) (id : Nat) : Prop :=
  ∀ out rest, p.print names out (.node id :: rest) =
    p.term names id >>= fun t => p.print names (out ++ t.text) rest

/-- Further arguments are written with a comma in front of each. -/
theorem print_push_later {args : List Nat} (each : ∀ a ∈ args, p.PrintsAs names a) {place : Nat}
    (later : 0 < place) :
    p.print names out (Pending.push (args.zipIdx place) rest) =
      args.mapM (p.term names) >>= fun ts =>
        p.print names (out ++ String.join (ts.map fun t => ", " ++ t.text)) rest := by
  induction args generalizing out place with
  | nil => simp [Pending.push, ok_bind, pure, Except.pure]
  | cons a args ih =>
    rw [List.forall_mem_cons] at each
    have pushed : Pending.push ((a :: args).zipIdx place) rest =
        .text ", " :: .node a :: Pending.push (args.zipIdx (place + 1)) rest := by
      rw [List.zipIdx_cons, Pending.push_cons, if_pos later]
    rw [pushed, print_text, each.1, List.mapM_cons]
    simp only [bind_assoc, pure_bind, ih each.2 (Nat.succ_pos place), List.map_cons, String.join_cons,
      String.append_assoc]

/-- Arguments are written with commas between them. -/
theorem print_push {args : List Nat} (each : ∀ a ∈ args, p.PrintsAs names a) :
    p.print names out (Pending.push args.zipIdx rest) =
      args.mapM (p.term names) >>= fun ts =>
        p.print names (out ++ ", ".intercalate (ts.map Term.text)) rest := by
  cases args with
  | nil => simp [Pending.push, ok_bind, pure, Except.pure]
  | cons a args =>
    rw [List.forall_mem_cons] at each
    have pushed : Pending.push (a :: args).zipIdx rest =
        .node a :: Pending.push (args.zipIdx 1) rest := rfl
    rw [pushed, each.1, List.mapM_cons]
    simp only [bind_assoc, pure_bind, print_push_later each.2 Nat.one_pos, List.map_cons,
      intercalate_comma, List.map_map, Function.comp_def, String.append_assoc]

/-- A call is written with its arguments between parentheses. -/
theorem print_pushArguments {args : List (Fin id)} (below : ∀ c, c < id → p.PrintsAs names c) :
    p.print names out (Pending.pushArguments (args.map Fin.val) rest) =
      args.mapM (fun (a : Fin id) => p.term names a.val) >>= fun ts =>
        p.print names (out ++ ", ".intercalate (ts.map Term.text) ++ ")") rest := by
  have each : ∀ a ∈ args.map Fin.val, p.PrintsAs names a := by
    intro a ha
    obtain ⟨c, -, rfl⟩ := List.mem_map.1 ha
    exact below c c.isLt
  rw [Pending.pushArguments, print_push each, List.mapM_map]
  simp only [print_text]
  rfl

/-- A call or constructor without a name is written as such. -/
theorem print_apply {callee : Callee} {args : List (Fin id)} (free : names.nameOf? id = none)
    (expanded : p.expand id rest =
      .ok (callee.name ++ "(", Pending.pushArguments (args.map Fin.val) rest))
    (below : ∀ c, c < id → p.PrintsAs names c) :
    p.print names out (.node id :: rest) =
      args.mapM (fun (a : Fin id) => p.term names a.val) >>= fun ts =>
        p.print names (out ++ (Term.apply callee ts).text) rest := by
  rw [print_expanded free expanded, print_pushArguments below]
  simp only [Term.text_apply, String.append_assoc]

/-- **A node is written in full before anything behind it.**  The induction is on the number of the node,
for its children are smaller. -/
theorem print_node (p : Pool) (names : Binder) (id : Nat) : p.PrintsAs names id := by
  induction id using Nat.strongRecOn with
  | ind id ih =>
    intro out rest
    cases named : names.nameOf? id with
    | some name => rw [print_named named, term_bound named, ok_bind, Term.text_name]
    | none =>
      by_cases operation : ∃ n, p.node? id = some n ∧ n.isInput = false
      · obtain ⟨n, hn, inner⟩ := operation
        rw [term_operation named hn inner]
        match n, hn, inner with
        | .operator op l r, hn, _ =>
          have expanded : p.expand id rest = .ok ("(", .node l :: .text " " :: .text op.symbol ::
              .text " " :: .node r :: .text ")" :: rest) := by rw [expand, hn]
          rw [print_expanded named expanded, ih l l.isLt]
          simp only [Node.mapM, bind_assoc, pure_bind, ok_bind, print_text, ih r r.isLt _ _, Term.ofNode,
            Term.text_operator, String.append_assoc]
        | .call function args, hn, _ =>
          have expanded : p.expand id rest = .ok ((Callee.function function).name ++ "(",
              Pending.pushArguments (args.map Fin.val) rest) := by
            rw [expand, hn]
            rfl
          rw [print_apply named expanded ih]
          simp only [Node.mapM, bind_assoc, pure_bind, ok_bind, Term.ofNode]
        | .construct args, hn, _ =>
          have expanded : p.expand id rest = .ok ((Callee.constructor (p.kind id)).name ++ "(",
              Pending.pushArguments (args.map Fin.val) rest) := by
            rw [expand, hn]
            rfl
          rw [print_apply named expanded ih]
          simp only [Node.mapM, bind_assoc, pure_bind, ok_bind, Term.ofNode]
        | .literal value, hn, _ =>
          have expanded : p.expand id rest = .ok (value.text, rest) := by rw [expand, hn]
          rw [print_expanded named expanded]
          simp only [Node.mapM, pure_bind, ok_bind, Term.ofNode, Term.text_literal]
      · have input : ∀ n, p.node? id = some n → n.isInput = true := fun n hn =>
          Bool.of_not_eq_false fun inner => operation ⟨n, hn, inner⟩
        rw [print_refused named (expand_input input rest), term_input named input]
        rfl

/-- The text of a node is the text of its term. -/
theorem emit_eq (p : Pool) (names : Binder) (id : Nat) :
    p.emit names id = p.term names id >>= fun t => .ok t.text := by
  rw [emit, print_node]
  simp only [print, String.empty_append]

/-! ### Inputs without a name -/

/-- The paths from a node past unnamed nodes to inputs without a name, which its text would have to
mention.  What a path goes through stands before what a lexicographically larger one goes through. -/
def namelessInputs (p : Pool) (names : Binder) (id : Nat) : Set (List Nat) :=
  {path | ∃ c, p.follow? (unnamed names) id path = some c ∧ p.isInput c = true}

theorem namelessInputs_named {name : String} (named : names.nameOf? id = some name) :
    p.namelessInputs names id = ∅ := by
  refine Set.eq_empty_iff_forall_notMem.2 ?_
  rintro path ⟨c, leads, -⟩
  cases path <;> simp [follow?, unnamed_of_name named] at leads

/-- Nothing comes before an input itself. -/
theorem isLeast_namelessInputs (free : names.nameOf? id = none) (input : p.isInput id = true) :
    IsLeast (p.namelessInputs names id) [] :=
  ⟨⟨id, by rw [follow?, if_pos (unnamed_iff.2 free)], input⟩, fun path _ => not_lt.1 (List.not_lt_nil path)⟩

theorem follow?_cons {place c : Nat} (free : names.nameOf? id = none)
    (at_place : (Walk.childList p id)[place]? = some c) (path : List Nat) :
    p.follow? (unnamed names) id (place :: path) = p.follow? (unnamed names) c path := by
  rw [follow?, if_pos (unnamed_iff.2 free), at_place, Option.bind_some]

/-- A path leads to a kept node below its start. -/
theorem follow?_sound {keep : Nat → Bool} {path : List Nat} {c : Nat}
    (leads : p.follow? keep id path = some c) : keep c = true ∧ p.Reaches id c := by
  induction path generalizing id with
  | nil =>
    rw [follow?] at leads
    split at leads
    · next kept =>
      cases leads
      exact ⟨kept, .refl⟩
    · cases leads
  | cons place path ih =>
    rw [follow?] at leads
    split at leads
    · obtain ⟨d, at_place, leads⟩ := Option.bind_eq_some_iff.1 leads
      obtain ⟨kept, path⟩ := ih leads
      exact ⟨kept, path.head (List.mem_of_getElem? at_place)⟩
    · cases leads

/-- Below an operation, the first step of a path leads to a child. -/
theorem mem_namelessInputs {path : List Nat} (free : names.nameOf? id = none)
    (operation : p.isInput id = false) :
    path ∈ p.namelessInputs names id ↔ ∃ place c rest, path = place :: rest ∧
      (Walk.childList p id)[place]? = some c ∧ rest ∈ p.namelessInputs names c := by
  constructor
  · rintro ⟨d, leads, input⟩
    cases path with
    | nil =>
      rw [follow?, if_pos (unnamed_iff.2 free)] at leads
      cases leads
      rw [operation] at input
      cases input
    | cons place rest =>
      rw [follow?, if_pos (unnamed_iff.2 free)] at leads
      obtain ⟨c, at_place, leads⟩ := Option.bind_eq_some_iff.1 leads
      exact ⟨place, c, rest, rfl, at_place, d, leads, input⟩
  · rintro ⟨place, c, rest, rfl, at_place, d, leads, input⟩
    exact ⟨d, (follow?_cons free at_place rest).trans leads, input⟩

/-- What comes of writing a node: its text by recursion if no input lacks a name, otherwise a failure of
the first one that does. -/
inductive Verdict (p : Pool) (names : Binder) (id : Nat) : Except Failure Term → Prop where
  | written {t : Term} (all : p.namelessInputs names id = ∅) (text : t.text = p.sourceText names id) :
      Verdict p names id (.ok t)
  | refused {path : List Nat} {c : Nat} (first : IsLeast (p.namelessInputs names id) path)
      (leads : p.follow? (unnamed names) id path = some c) :
      Verdict p names id (.error (.unbound (p.reference c)))

theorem Verdict.nameless_eq_empty {t : Term} (h : p.Verdict names id (.ok t)) :
    p.namelessInputs names id = ∅ := by
  cases h with
  | written all _ => exact all

theorem Verdict.text_eq {t : Term} (h : p.Verdict names id (.ok t)) : t.text = p.sourceText names id := by
  cases h with
  | written _ text => exact text

/-- An operation whose children are all written is written. -/
theorem verdict_written {n : Node (Fin id)} {m : Node Term} (free : names.nameOf? id = none)
    (hn : p.node? id = some n) (operation : n.isInput = false)
    (children : ∀ c ∈ n.children, p.Verdict names c.val (p.term names c.val))
    (same : n.map (fun c => p.term names c.val) = m.map .ok) :
    p.Verdict names id (.ok (.ofNode (p.kind id) m)) := by
  have inner : p.isInput id = false := by rw [isInput, hn, Option.any_some, operation]
  refine .written ?_ ?_
  · refine Set.eq_empty_iff_forall_notMem.2 fun path mem => ?_
    obtain ⟨place, c, rest, -, at_place, below⟩ := (mem_namelessInputs free inner).1 mem
    rw [childList_of_node hn, Node.children_map] at at_place
    obtain ⟨d, hd, rfl⟩ := List.mem_map.1 (List.mem_of_getElem? at_place)
    obtain ⟨t, -, ht⟩ := Node.exists_partner same hd
    have verdict := children d hd
    rw [← ht] at verdict
    rw [verdict.nameless_eq_empty] at below
    exact below
  · have shape : m.isInput = false := (Node.isInput_congr same).symm.trans operation
    have texts : n.map (fun c => p.sourceText names c.val) = m.map Term.text := by
      refine Node.map_eq_map_of (fun c hc t _ written => ?_) same
      have verdict := children c hc
      rw [written] at verdict
      exact verdict.text_eq.symm
    rw [Term.text_ofNode shape, ← texts, sourceText, free]
    simp only [hn]

/-- An operation is refused with its first child that is: the children before it have no nameless input
below them. -/
theorem verdict_refused {n : Node (Fin id)} {place : Nat} {x : Fin id} {f : Failure}
    (free : names.nameOf? id = none) (hn : p.node? id = some n) (operation : n.isInput = false)
    (children : ∀ c ∈ n.children, p.Verdict names c.val (p.term names c.val))
    (at_place : n.children[place]? = some x) (failed : p.term names x.val = .error f)
    (before : ∀ j y, j < place → n.children[j]? = some y → ∃ t, p.term names y.val = .ok t) :
    p.Verdict names id (.error f) := by
  have inner : p.isInput id = false := by rw [isInput, hn, Option.any_some, operation]
  have list : Walk.childList p id = n.children.map Fin.val := by
    rw [childList_of_node hn, Node.children_map]
  have here : (Walk.childList p id)[place]? = some x.val := by rw [list, List.getElem?_map, at_place]; rfl
  have verdict := children x (List.mem_of_getElem? at_place)
  rw [failed] at verdict
  cases verdict with
  | @refused path c first leads =>
    have least : IsLeast (p.namelessInputs names id) (place :: path) := by
      refine ⟨(mem_namelessInputs free inner).2 ⟨place, x, path, rfl, here, first.1⟩, fun other mem => ?_⟩
      obtain ⟨j, d, rest, rfl, at_j, below⟩ := (mem_namelessInputs free inner).1 mem
      rcases Nat.lt_trichotomy j place with low | rfl | high
      · rw [list, List.getElem?_map] at at_j
        obtain ⟨y, hy, rfl⟩ := Option.map_eq_some_iff.1 at_j
        obtain ⟨t, written⟩ := before j y low hy
        have empty := children y (List.mem_of_getElem? hy)
        rw [written] at empty
        rw [empty.nameless_eq_empty] at below
        exact absurd below (Set.notMem_empty rest)
      · rw [here] at at_j
        cases at_j
        exact List.cons_le_cons j (first.2 below)
      · exact le_of_lt (List.Lex.rel high)
    exact .refused least ((follow?_cons free here path).trans leads)

/-- **What comes of writing a node**, by induction on its number. -/
theorem WellFormed.term_verdict (wf : p.WellFormed) (names : Binder) (present : id < p.size) :
    p.Verdict names id (p.term names id) := by
  induction id using Nat.strongRecOn with
  | ind id ih =>
    cases named : names.nameOf? id with
    | some name =>
      rw [term_bound named]
      refine .written (namelessInputs_named named) ?_
      rw [Term.text_name, sourceText, named]
    | none =>
      obtain ⟨n, hn, input, -⟩ := wf.exists_node present
      cases shape : n.isInput with
      | true =>
        rw [term_of_input named hn shape]
        refine .refused (isLeast_namelessInputs named (input.trans shape)) ?_
        rw [follow?, if_pos (unnamed_iff.2 named)]
      | false =>
        have children : ∀ c ∈ n.children, p.Verdict names c.val (p.term names c.val) := fun c _ =>
          ih c.val c.isLt (Nat.lt_trans c.isLt present)
        rw [term_operation named hn shape]
        rcases n.mapM_cases fun c => p.term names c.val with
          ⟨m, run, same⟩ | ⟨place, x, f, at_place, failed, run, before⟩
        · rw [run, ok_bind]
          exact verdict_written named hn shape children same
        · rw [run]
          exact verdict_refused named hn shape children at_place failed before

end Pool

namespace Session

variable {s : Session} {i id : Nat}

/-- **Printing by a stack is printing by recursion.**  For every node of a pool of a reachable session and
every binder, what is printed is the text of the node by recursion if no attribute, uniform or varying
without a name is reached past unnamed nodes; otherwise the first such input in the order of the text is
reported. -/
theorem Reachable.emit_source (reachable : s.Reachable) (present : id < (s.workspace.pool i).size)
    (names : Binder) :
    let p := s.workspace.pool i
    (p.namelessInputs names id = ∅ → p.emit names id = .ok (p.sourceText names id)) ∧
      ((p.namelessInputs names id).Nonempty → ∃ path c, IsLeast (p.namelessInputs names id) path ∧
        p.follow? (Pool.unnamed names) id path = some c ∧
        p.emit names id = .error (.unbound (p.reference c))) := by
  intro p
  have wf : p.WellFormed := reachable.valid.wellFormed i
  have verdict := wf.term_verdict names present
  rw [Pool.emit_eq]
  cases run : p.term names id with
  | ok t =>
    rw [run] at verdict
    refine ⟨fun _ => ?_, fun met => ?_⟩
    · rw [ok_bind, verdict.text_eq]
    · rw [verdict.nameless_eq_empty] at met
      exact absurd met Set.not_nonempty_empty
  | error f =>
    rw [run] at verdict
    cases verdict with
    | @refused path c first leads =>
      refine ⟨fun clear => ?_, fun _ => ⟨path, c, first, leads, rfl⟩⟩
      have mem := first.1
      rw [clear] at mem
      exact absurd mem (Set.notMem_empty path)

/-- The difference of the uniform `phase` and a constant is written with the name of the uniform.  Without
a name, the uniform is reported. -/
theorem shifted_emit_source :
    let p := shifted.workspace.pool 0
    shifted.Reachable ∧ 2 < p.size ∧
      p.emit (Binder.withReserved.withName 0 "u") 2 = .ok "(u - -1.0)" ∧
      p.emit Binder.withReserved 2 = .error (.unbound (.uniform "phase")) := by
  intro p
  have present : 2 < p.size := by decide
  -- the uniform is the only input that a path can lead to
  have only : ∀ {names : Binder} {path c}, p.follow? (Pool.unnamed names) 2 path = some c →
      p.isInput c = true → c = 0 ∧ names.nameOf? 0 = none := by
    intro names path c leads input
    obtain ⟨kept, path⟩ := Pool.follow?_sound leads
    have le : c ≤ 2 := path.le
    obtain rfl | rfl | rfl : c = 0 ∨ c = 1 ∨ c = 2 := by omega
    · exact ⟨rfl, Pool.unnamed_iff.1 kept⟩
    all_goals exact absurd input (by decide)
  refine ⟨reachable_shifted, present, ?_, ?_⟩
  · have named : (Binder.withReserved.withName 0 "u").nameOf? 0 = some "u" := by decide
    have clear : p.namelessInputs (Binder.withReserved.withName 0 "u") 2 = ∅ := by
      refine Set.eq_empty_iff_forall_notMem.2 ?_
      rintro path ⟨c, leads, input⟩
      have free := (only leads input).2
      rw [named] at free
      cases free
    have text := (reachable_shifted.emit_source present (Binder.withReserved.withName 0 "u")).1 clear
    have uniform : p.sourceText (Binder.withReserved.withName 0 "u") 0 = "u" := by
      rw [Pool.sourceText, named]
    have constant : p.sourceText (Binder.withReserved.withName 0 "u") 1 = "-1.0" := by
      rw [Pool.sourceText]
      decide +kernel
    have free : (Binder.withReserved.withName 0 "u").nameOf? 2 = none := by decide
    rw [text, Pool.sourceText, free]
    show Except.ok ("(" ++ p.sourceText _ 0 ++ " " ++ "-" ++ " " ++ p.sourceText _ 1 ++ ")") = _
    rw [uniform, constant]
    rfl
  · have met : (p.namelessInputs Binder.withReserved 2).Nonempty := by
      refine ⟨[0], 0, ?_, by decide⟩
      rfl
    obtain ⟨path, c, ⟨⟨d, leads', input⟩, -⟩, leads, run⟩ :=
      (reachable_shifted.emit_source present Binder.withReserved).2 met
    rw [leads] at leads'
    cases leads'
    obtain ⟨rfl, -⟩ := only leads input
    exact run

end Session

end ShaderDag
