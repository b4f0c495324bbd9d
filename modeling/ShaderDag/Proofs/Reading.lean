import ShaderDag.Document.Reader
import ShaderDag.Proofs.JsonText

/-!
# Documents are read back from their text

A document is written as an object with all its fields, in a fixed order.  The reader takes fields in any
order, fills in what is missing and also accepts arrays; on a written document it takes each token once
and puts every field back in its place.

* `Reader.Takes` — a reader takes some tokens, whatever stands behind them;
* `Reader.Steps`, `Reader.takes_entries` — the members of an object, one by one;
* `Reader.takes_elements` — the elements of an array;
* `Reader.takes_inputs`, `Reader.takes_definition`, `Reader.takes_options`, `Reader.takes_document` — the
  parts of a document;
* `Document.written` — the tokens of a document are those of a value;
* `Document.normalize` — text that is read and written again;
* `Document.text_reads_back` — every document is read back, so a normalized text stays as it is.
-/

namespace ShaderDag

open Json (separated arrayTokens objectTokens)

namespace Reader

variable {α β : Type}

/-- A reader takes some tokens, whatever stands behind them, and gives a value. -/
def Takes (reader : Reader α) (ts : List Json.Token) (a : α) : Prop :=
  ∀ rest, reader (ts ++ rest) = .ok (a, rest)

theorem run_bind {reader : Reader α} {next : α → Reader β} {ts rest : List Json.Token} {a : α}
    (run : reader ts = .ok (a, rest)) : (reader >>= next) ts = next a rest := by
  show (reader ts >>= fun p => next p.1 p.2) = next a rest
  rw [run]
  rfl

theorem Takes.bind {reader : Reader α} {next : α → Reader β} {ts us : List Json.Token} {a : α} {b : β}
    (first : Takes reader ts a) (second : Takes (next a) us b) : Takes (reader >>= next) (ts ++ us) b := by
  intro rest
  rw [List.append_assoc, run_bind (first _)]
  exact second rest

theorem Takes.map {reader : Reader α} {ts : List Json.Token} {a : α} (h : Takes reader ts a) (f : α → β) :
    Takes (do return f (← reader)) ts (f a) := by
  intro rest
  rw [run_bind (h rest)]
  rfl

/-! ### Single values -/

theorem takes_expect (t : Json.Token) : Takes (expect t) [t] () := by
  intro rest
  show (if some t = some t then skip else malformed : Reader Unit) (t :: rest) = .ok ((), rest)
  rw [if_pos rfl]
  rfl

theorem takes_text (s : String) : Takes text [.text s] s := fun _ => rfl

theorem takes_boolean (b : Bool) : Takes boolean [.boolean b] b := fun _ => rfl

theorem takes_null : Takes word? [.null] none := fun _ => rfl

theorem takes_word (v : UInt32) : Takes word? [.number (.integer v.toNat)] (some v) := by
  intro rest
  have fits : 0 ≤ (v.toNat : Int) ∧ (v.toNat : Int) < twoTo 32 := by
    have small : v.toNat < 2 ^ 32 := v.toNat_lt
    exact ⟨Int.natCast_nonneg _, by exact_mod_cast small⟩
  have step : ∀ value : Int, word? (.number (.integer value) :: rest) =
      (if 0 ≤ value ∧ value < twoTo 32 then (do skip; return some value.toNat.toUInt32)
        else throw (.invalidValue value) : Reader (Option UInt32)) (.number (.integer value) :: rest) :=
    fun _ => rfl
  rw [List.singleton_append, step, if_pos fits, Int.toNat_natCast]
  show Except.ok (some (UInt32.ofNat v.toNat), rest) = .ok (some v, rest)
  rw [UInt32.ofNat_toNat]

theorem takes_named {known : List (String × α)} {name : String} {a : α}
    (listed : known.lookup name = some a) :
    Takes (named known) [.text name] a := by
  intro rest
  show variant known name rest = .ok (a, rest)
  rw [variant, listed]
  rfl

theorem takes_field {value : Reader α} {ts : List Json.Token} {a : α} (name : String) (h : Takes value ts a) :
    Takes (field name none value) (.colon :: ts) (some a) :=
  (takes_expect .colon).bind (h.map some)

/-! ### Objects and arrays -/

theorem separated_cons (item : List Json.Token) (items : List (List Json.Token)) :
    separated (item :: items) = item ++ items.flatMap (.comma :: ·) := by
  induction items generalizing item with
  | nil => simp [separated]
  | cons next items ih =>
    rw [separated, ih, List.flatMap_cons, List.cons_append]
    exact List.cons_ne_nil next items

/-- A token in front of each item makes as many tokens as there are items. -/
theorem length_le_flatMap_comma (items : List (List Json.Token)) :
    items.length ≤ (items.flatMap (.comma :: ·)).length := by
  induction items with
  | nil => exact Nat.le_refl 0
  | cons item items ih =>
    simp only [List.flatMap_cons, List.length_append, List.length_cons]
    omega

/-- The key and the value of a member. -/
def memberTokens (m : String × List Json.Token) : List Json.Token := .text m.1 :: .colon :: m.2

/-- Members of an object that are read one by one, each from what the earlier ones left. -/
inductive Steps (step : α → String → Reader α) : α → List (String × List Json.Token) → α → Prop where
  | done (acc : α) : Steps step acc [] acc
  | member {acc acc₁ acc₂ : α} {key : String} {value : List Json.Token}
      {members : List (String × List Json.Token)} (first : Takes (step acc key) (.colon :: value) acc₁)
      (rest : Steps step acc₁ members acc₂) : Steps step acc ((key, value) :: members) acc₂

theorem entriesFrom_first (step : α → String → Reader α) (count : Nat) (acc : α) (key : String)
    (ts : List Json.Token) :
    entriesFrom step (count + 1) true acc (.text key :: ts) =
      (step acc key >>= entriesFrom step count false) ts := rfl

theorem entriesFrom_later (step : α → String → Reader α) (count : Nat) (acc : α) (key : String)
    (ts : List Json.Token) :
    entriesFrom step (count + 1) false acc (.comma :: .text key :: ts) =
      (step acc key >>= entriesFrom step count false) ts := rfl

theorem entriesFrom_close (step : α → String → Reader α) (count : Nat) (first : Bool) (acc : α)
    (ts : List Json.Token) :
    entriesFrom step (count + 1) first acc (.closeBrace :: ts) = .ok (acc, ts) := rfl

/-- Members behind the first, each with a comma in front of it. -/
theorem Steps.later {step : α → String → Reader α} {acc acc' : α}
    {members : List (String × List Json.Token)} (h : Steps step acc members acc') :
    ∀ count, members.length < count →
      Takes (entriesFrom step count false acc)
        ((members.map memberTokens).flatMap (.comma :: ·) ++ [.closeBrace]) acc' := by
  induction h with
  | done acc =>
    intro count enough rest
    match count, enough with
    | count + 1, _ => exact entriesFrom_close step count false acc rest
  | @member acc acc₁ acc₂ key value members first _ ih =>
    intro count enough rest
    match count, enough with
    | count + 1, enough =>
      have shape :
          ((((key, value) :: members).map memberTokens).flatMap (.comma :: ·) ++ [.closeBrace]) ++ rest =
          .comma :: .text key :: (.colon :: value ++
            (((members.map memberTokens).flatMap (.comma :: ·) ++ [.closeBrace]) ++ rest)) := by
        simp [memberTokens]
      rw [shape, entriesFrom_later, run_bind (first _)]
      exact ih count (Nat.lt_of_succ_lt_succ enough) rest

/-- **The members of an object are read one by one.** -/
theorem takes_entries {step : α → String → Reader α} {acc acc' : α}
    {members : List (String × List Json.Token)} (h : Steps step acc members acc') :
    Takes (entries step acc) (separated (members.map memberTokens) ++ [.closeBrace]) acc' := by
  intro rest
  show entriesFrom step ((separated (members.map memberTokens) ++ [Json.Token.closeBrace] ++ rest).length + 1)
    true acc _ = _
  cases h with
  | done => exact entriesFrom_close step _ true acc rest
  | @member _ acc₁ _ key value members first more =>
    have shape : separated (((key, value) :: members).map memberTokens) ++ [.closeBrace] ++ rest =
        .text key :: (.colon :: value ++
          (((members.map memberTokens).flatMap (.comma :: ·) ++ [.closeBrace]) ++ rest)) := by
      rw [List.map_cons, separated_cons]
      simp [memberTokens]
    rw [shape, entriesFrom_first, run_bind (first _)]
    refine more.later _ ?_ rest
    have count := length_le_flatMap_comma (members.map memberTokens)
    simp only [List.length_cons, List.length_append, List.length_map] at count ⊢
    omega

/-- A reader of objects collects the members and makes its value of them. -/
theorem takes_object {step : α → String → Reader α} {start acc : α} {reader : Reader β}
    {members : List (String × List Json.Token)} {finish : α → Reader β} {b : β}
    (h : Steps step start members acc)
    (reads : ∀ ts, reader (.openBrace :: ts) = (entries step start >>= finish) ts)
    (made : Takes (finish acc) [] b) : Takes reader (objectTokens members) b := by
  intro rest
  show reader (.openBrace :: (separated (members.map memberTokens) ++ [.closeBrace] ++ rest)) = _
  rw [reads, run_bind (takes_entries h rest)]
  exact made rest

theorem elementsFrom_close (element : Reader α) (count : Nat) (first : Bool) (ts : List Json.Token) :
    elementsFrom element (count + 1) first (.closeBracket :: ts) = .ok ([], ts) := rfl

theorem elementsFrom_first (element : Reader α) (count : Nat) (ts : List Json.Token) :
    elementsFrom element (count + 1) true (.openBrace :: ts) =
      (do
        let a ← element
        return a :: (← elementsFrom element count false)) (.openBrace :: ts) := rfl

theorem elementsFrom_later (element : Reader α) (count : Nat) (ts : List Json.Token) :
    elementsFrom element (count + 1) false (.comma :: ts) =
      (do
        let a ← element
        return a :: (← elementsFrom element count false)) ts := rfl

section Elements

variable {element : Reader α} {form : α → List Json.Token} (each : ∀ a, Takes element (form a) a)
include each

/-- Elements behind the first, each with a comma in front of it. -/
theorem takes_elementsFrom (as : List α) : ∀ count, as.length < count →
    Takes (elementsFrom element count false) ((as.map form).flatMap (.comma :: ·) ++ [.closeBracket]) as := by
  induction as with
  | nil =>
    intro count enough rest
    match count, enough with
    | count + 1, _ => exact elementsFrom_close element count false rest
  | cons a as ih =>
    intro count enough rest
    match count, enough with
    | count + 1, enough =>
      have shape : (((a :: as).map form).flatMap (.comma :: ·) ++ [Json.Token.closeBracket]) ++ rest =
          .comma :: (form a ++ (((as.map form).flatMap (.comma :: ·) ++ [.closeBracket]) ++ rest)) := by
        simp
      rw [shape, elementsFrom_later, run_bind (each a _),
        run_bind (ih count (Nat.lt_of_succ_lt_succ enough) rest)]
      rfl

/-- **The elements of an array of objects are read one by one.** -/
theorem takes_elements (objects : ∀ a, ∃ ts, form a = .openBrace :: ts) (as : List α) :
    Takes (elements element) (separated (as.map form) ++ [.closeBracket]) as := by
  intro rest
  show elementsFrom element
    ((separated (as.map form) ++ [Json.Token.closeBracket] ++ rest).length + 1) true _ = _
  cases as with
  | nil => exact elementsFrom_close element _ true rest
  | cons a as =>
    obtain ⟨ts, opens⟩ := objects a
    have shape : separated ((a :: as).map form) ++ [Json.Token.closeBracket] ++ rest =
        form a ++ (((as.map form).flatMap (.comma :: ·) ++ [.closeBracket]) ++ rest) := by
      rw [List.map_cons, separated_cons]
      simp
    have start : ∀ count more, elementsFrom element (count + 1) true (form a ++ more) =
        (do
          let b ← element
          return b :: (← elementsFrom element count false)) (form a ++ more) := by
      intro count more
      rw [opens]
      exact elementsFrom_first element count (ts ++ more)
    have enough : as.length <
      (form a ++ (((as.map form).flatMap (.comma :: ·) ++ [Json.Token.closeBracket]) ++
        rest)).length := by
      have count := length_le_flatMap_comma (as.map form)
      simp only [List.length_append, List.length_map, List.length_cons] at count ⊢
      omega
    rw [shape, start, run_bind (each a _), run_bind (takes_elementsFrom each as _ enough rest)]
    rfl

end Elements

/-! ### Parts of a document -/

theorem takes_kind (kind : Kind) : Takes (named kinds) [.text kind.name] kind :=
  takes_named (by cases kind <;> rfl)

theorem takes_precision (precision : Precision) : Takes (named precisions) [.text precision.name] precision :=
  takes_named (by cases precision <;> rfl)

end Reader

theorem InputTable.eq_of_entries {t u : InputTable} (same : t.entries = u.entries) : t = u := by
  cases t
  cases u
  cases same
  rfl

/-- An input behind all others is added at the end. -/
theorem InputTable.insertEntry_last {name : String} {entries : List (String × Kind)} (kind : Kind)
    (last : ∀ e ∈ entries, e.1 < name) : insertEntry name kind entries = entries ++ [(name, kind)] := by
  induction entries with
  | nil => rfl
  | cons e entries ih =>
    have less : e.1 < name := last e List.mem_cons_self
    have differs : name ≠ e.1 := fun same => String.lt_irrefl _ (same ▸ less)
    have behind : ¬name < e.1 := fun before => String.lt_irrefl _ (String.lt_trans less before)
    rw [insertEntry, if_neg differs, if_neg behind, ih fun x hx => last x (List.mem_cons_of_mem e hx)]
    rfl

namespace Reader

/-- One input of a table. -/
def inputStep (acc : InputTable) (name : String) : Reader InputTable := do
  expect .colon
  return acc.insert name (← named kinds)

/-- Inputs in ascending order are added one behind the other. -/
theorem steps_inputs (todo : List (String × Kind)) :
    ∀ acc table : InputTable, table.entries = acc.entries ++ todo →
      Steps inputStep acc (todo.map fun (name, kind) => (name, [.text kind.name])) table := by
  induction todo with
  | nil =>
    intro acc table all
    rw [List.append_nil] at all
    rw [InputTable.eq_of_entries all]
    exact .done acc
  | cons e todo ih =>
    intro acc table all
    obtain ⟨name, kind⟩ := e
    have ascending := table.ascending
    rw [all, List.pairwise_append] at ascending
    have last : ∀ e ∈ acc.entries, e.1 < name := fun e mem => ascending.2.2 e mem _ List.mem_cons_self
    have added : (acc.insert name kind).entries = acc.entries ++ [(name, kind)] :=
      InputTable.insertEntry_last kind last
    refine .member ((takes_expect .colon).bind ((takes_kind kind).map _)) (ih _ table ?_)
    rw [all, added, List.append_assoc, List.singleton_append]

theorem inputs_object (ts : List Json.Token) :
    inputs (.openBrace :: ts) = entries inputStep .empty ts := rfl

theorem takes_inputs (table : InputTable) : Takes inputs table.tokens table := by
  intro rest
  have members := takes_entries (steps_inputs table.entries .empty table rfl) rest
  exact (inputs_object _).trans members

theorem definition_object (ts : List Json.Token) :
    definition (.openBrace :: ts) =
      (do
        let fields ← entries definitionField ⟨none, none, none⟩
        let name ← required "name" fields.name
        let source ← required "expr" fields.source
        return ⟨name, source, fields.varying.getD false⟩ : Reader Definition) ts := rfl

theorem takes_definition (d : Definition) : Takes definition d.tokens d := by
  have fields : Steps definitionField ⟨none, none, none⟩
      [("name", [.text d.name]), ("expr", [.text d.source]), ("varying", [.boolean d.varying])]
      ⟨some d.name, some d.source, some d.varying⟩ :=
    .member ((takes_field _ (takes_text d.name)).map _)
      (.member ((takes_field _ (takes_text d.source)).map _)
        (.member ((takes_field _ (takes_boolean d.varying)).map _) (.done _)))
  exact takes_object fields definition_object fun _ => rfl

theorem takes_definitions (ds : List Definition) :
    Takes definitions (arrayTokens (ds.map Definition.tokens)) ds :=
  takes_elements takes_definition (fun _ => ⟨_, rfl⟩) ds

theorem takes_version (version : Option UInt32) :
    Takes word?
      (match version with
        | some version => [.number (.integer version.toNat)]
        | none => [.null]) version := by
  cases version with
  | some v => exact takes_word v
  | none => exact takes_null

theorem options_object (ts : List Json.Token) :
    options (.openBrace :: ts) =
      (do
        let fields ← entries optionField ⟨none, none⟩
        return ⟨fields.precision.getD Options.standard.precision,
          fields.version.getD Options.standard.version⟩ : Reader Options) ts := rfl

theorem takes_options (o : Options) : Takes options o.tokens o := by
  have fields : Steps optionField ⟨none, none⟩
      [("float_precision", [.text o.precision.name]),
        ("version",
          match o.version with
          | some version => [.number (.integer version.toNat)]
          | none => [.null])]
      ⟨some o.precision, some o.version⟩ :=
    .member ((takes_field _ (takes_precision o.precision)).map _)
      (.member ((takes_field _ (takes_version o.version)).map _) (.done _))
  exact takes_object fields options_object fun _ => rfl

theorem document_object (ts : List Json.Token) :
    document (.openBrace :: ts) =
      (do
        let fields ← entries documentField ⟨none, none, none, none, none, none⟩
        let position ← required "vertex_position" fields.position
        let colour ← required "fragment_colour" fields.colour
        return ⟨fields.attributes.getD .empty, fields.uniforms.getD .empty, fields.definitions.getD [],
          position, colour, fields.options.getD .standard⟩ : Reader Document) ts := rfl

theorem takes_document (doc : Document) : Takes document doc.tokens doc := by
  have fields : Steps documentField ⟨none, none, none, none, none, none⟩
      [("attributes", doc.attributes.tokens), ("uniforms", doc.uniforms.tokens),
        ("defs", arrayTokens (doc.definitions.map Definition.tokens)),
        ("vertex_position", [.text doc.position]), ("fragment_colour", [.text doc.colour]),
        ("options", doc.options.tokens)]
      ⟨some doc.attributes, some doc.uniforms, some doc.definitions, some doc.position, some doc.colour,
        some doc.options⟩ :=
    .member ((takes_field _ (takes_inputs doc.attributes)).map _)
      (.member ((takes_field _ (takes_inputs doc.uniforms)).map _)
        (.member ((takes_field _ (takes_definitions doc.definitions)).map _)
          (.member ((takes_field _ (takes_text doc.position)).map _)
            (.member ((takes_field _ (takes_text doc.colour)).map _)
              (.member ((takes_field _ (takes_options doc.options)).map _) (.done _))))))
  exact takes_object fields document_object fun _ => rfl

end Reader

/-! ### Documents -/

open Json (Written)

theorem InputTable.written (table : InputTable) : Written table.tokens := by
  refine .object fun m mem => ?_
  obtain ⟨e, -, rfl⟩ := List.mem_map.1 mem
  exact .text e.2.name

theorem Definition.written (d : Definition) : Written d.tokens := by
  refine .object ?_
  simp only [List.forall_mem_cons]
  exact ⟨.text d.name, .text d.source, .boolean d.varying, nofun⟩

theorem Options.written (o : Options) : Written o.tokens := by
  refine .object ?_
  simp only [List.forall_mem_cons]
  refine ⟨.text o.precision.name, ?_, nofun⟩
  cases o.version with
  | some v => exact .natural (Nat.lt_trans v.toNat_lt (by decide))
  | none => exact .null

namespace Document

/-- The tokens of a document are those of a value. -/
theorem written (doc : Document) : Written doc.tokens := by
  have definitions : Written (arrayTokens (doc.definitions.map Definition.tokens)) := by
    refine .array fun ts mem => ?_
    obtain ⟨d, -, rfl⟩ := List.mem_map.1 mem
    exact d.written
  refine .object ?_
  simp only [List.forall_mem_cons]
  exact ⟨doc.attributes.written, doc.uniforms.written, definitions, .text doc.position, .text doc.colour,
    doc.options.written, nofun⟩

theorem wholeDocument_tokens (doc : Document) : Reader.wholeDocument doc.tokens = .ok (doc, []) := by
  have read := Reader.takes_document doc []
  rw [List.append_nil] at read
  rw [Reader.wholeDocument, Reader.run_bind read]
  rfl

theorem ofText_text (doc : Document) : ofText doc.text = .ok doc := by
  have tokens : Json.tokenize doc.text.toList = doc.tokens := by
    rw [text, Json.writeTokens, String.toList_ofList, doc.written.tokenize_eq]
  have run : Reader.wholeDocument.run (Json.tokenize doc.text.toList) = .ok (doc, []) := by
    rw [tokens]
    exact doc.wholeDocument_tokens
  rw [ofText, ofCharacters, run]

/-- Text that is read as a document and written again. -/
def normalize (source : String) : Except Failure String := (ofText source).map text

theorem normalize_of_ok {source : String} {doc : Document} (read : ofText source = .ok doc) :
    normalize source = .ok doc.text := by
  rw [normalize, read]
  rfl

/-- **Documents are read back from their text.**  So a text that is read and written again is left alone
when that is done once more, however it was spelled at first. -/
theorem text_reads_back :
    (∀ doc : Document, ofText doc.text = .ok doc) ∧
      ∀ source : String, (normalize source >>= normalize) = normalize source := by
  refine ⟨ofText_text, fun source => ?_⟩
  cases read : ofText source with
  | error f =>
    rw [normalize, read]
    rfl
  | ok doc => rw [normalize_of_ok read, ok_bind, normalize_of_ok doc.ofText_text]

-- an array of fields, with one input given twice and without options
example :
    normalize "[\x7b\"p\":\"vec2\",\"p\":\"vec4\"\x7d, \x7b\x7d, [], \"p\", \"p\"]" =
      .ok ("\x7b\"attributes\":\x7b\"p\":\"vec4\"\x7d,\"uniforms\":\x7b\x7d,\"defs\":[]," ++
        "\"vertex_position\":\"p\",\"fragment_colour\":\"p\"," ++
        "\"options\":\x7b\"float_precision\":\"mediump\",\"version\":null\x7d\x7d") := by
  decide +kernel

end Document

end ShaderDag
