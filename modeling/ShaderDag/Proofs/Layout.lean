import ShaderDag.Proofs.Agreement
import ShaderDag.Proofs.Hygiene
import ShaderDag.Proofs.RoundTrip

/-!
# The lines of generated source

The names of attributes and uniforms are the caller's and may be any text until they are bound.  Whatever
they are, source that was assembled consists of lines of a few forms, in which only identifiers, literals
and the names of kinds and functions vary.  Here are the forms, and that a text can be taken apart into
them in one way only.

* `Phrase`, `Phrase.Spelled` — values taken apart, and the grammar of their texts;
* `Phrase.Spelled.unique` — a value in front of a blank, a comma, a parenthesis or a semicolon is read in
  one way;
* `Layout`, `Layout.Spells` — a stage taken apart, and the lines that it makes up;
* `Layout.Spells.unique` — a text is made up by one layout at most.
-/

namespace ShaderDag

/-! ### The grammar of values -/

/-- A value of shader source taken apart. -/
inductive Phrase where
  | name (text : String)
  | literal (text : String)
  | apply (head : String) (args : List Phrase)
  | operator (symbol : String) (lhs rhs : Phrase)

namespace Phrase

mutual

/-- The texts of values: names, literals, functions and constructors applied to one or more values, and two
values around an operator in parentheses. -/
inductive Spelled : Phrase → List Char → Prop where
  | name {text : String} : isIdentifier text = true → Spelled (.name text) text.toList
  | literal (value : Constant) : Spelled (.literal value.text) value.text.toList
  | apply (callee : Callee) {first : Phrase} {more : List Phrase} {cs ds : List Char} :
      Spelled first cs → SpelledMore more ds →
      Spelled (.apply callee.name (first :: more))
        (callee.name.toList ++ ('(' :: (cs ++ (ds ++ [')']))))
  | operator (op : Operator) {lhs rhs : Phrase} {cs ds : List Char} : Spelled lhs cs → Spelled rhs ds →
      Spelled (.operator op.symbol lhs rhs)
        ('(' :: (cs ++ (' ' :: (op.symbol.toList ++ (' ' :: (ds ++ [')']))))))

/-- Further arguments, each behind a comma and a blank. -/
inductive SpelledMore : List Phrase → List Char → Prop where
  | nil : SpelledMore [] []
  | cons {first : Phrase} {more : List Phrase} {cs ds : List Char} :
      Spelled first cs → SpelledMore more ds → SpelledMore (first :: more) (',' :: ' ' :: (cs ++ ds))

end

end Phrase

/-! ### Words -/

/-- The front part of a list, of one class, ends where the class ends. -/
theorem span_inj {α : Type} {p : α → Bool} {xs xs' rest rest' : List α} (all : ∀ x ∈ xs, p x = true)
    (all' : ∀ x ∈ xs', p x = true) (stop : ∀ x, rest.head? = some x → p x = false)
    (stop' : ∀ x, rest'.head? = some x → p x = false) (same : xs ++ rest = xs' ++ rest') :
    xs = xs' ∧ rest = rest' := by
  obtain ⟨taken, dropped⟩ := span_append all stop
  obtain ⟨taken', dropped'⟩ := span_append all' stop'
  rw [same] at taken dropped
  exact ⟨taken.symm.trans taken', dropped.symm.trans dropped'⟩

/-- The characters of names and of numbers. -/
def isWordPart (c : Char) : Bool := isNamePart c || c == '.' || c == '-'

/-- A row of such characters. -/
structure IsWord (w : List Char) : Prop where
  nonempty : w ≠ []
  parts : ∀ c ∈ w, isWordPart c = true

/-- Text in front of which a word ends. -/
def EndsWord (rest : List Char) : Prop := ∀ c, rest.head? = some c → isWordPart c = false

theorem endsWord_cons {c : Char} (other : isWordPart c = false) (rest : List Char) :
    EndsWord (c :: rest) := by
  intro d same
  cases same
  exact other

theorem isWordPart_of_isDigit {c : Char} (h : isDigit c = true) : isWordPart c = true := by
  simp [isWordPart, isNamePart, h]

namespace IsWord

variable {w w' rest rest' : List Char}

/-- A word is all of the text up to where it ends. -/
theorem append_inj (h : IsWord w) (h' : IsWord w') (ends : EndsWord rest) (ends' : EndsWord rest')
    (same : w ++ rest = w' ++ rest') : w = w' ∧ rest = rest' :=
  span_inj h.parts h'.parts ends ends' same

/-- A word does not start with a parenthesis. -/
theorem append_ne_paren (h : IsWord w) : w ++ rest ≠ '(' :: rest' := by
  obtain ⟨c, cs, rfl⟩ := List.exists_cons_of_ne_nil h.nonempty
  intro same
  cases same
  exact absurd (h.parts '(' List.mem_cons_self) (by decide)

end IsWord

theorem isWord_of_isIdentifier {text : String} (h : isIdentifier text = true) : IsWord text.toList := by
  unfold isIdentifier at h
  split at h
  · next c cs spelled =>
    rw [Bool.and_eq_true, List.all_eq_true] at h
    rw [spelled]
    refine ⟨by simp, fun d hd => ?_⟩
    rcases List.mem_cons.1 hd with rfl | hd
    · simp [isWordPart, isNamePart, h.1]
    · simp [isWordPart, h.2 d hd]
  · cases h

theorem isNameStart_head {text : String} {c : Char} {cs : List Char} (h : isIdentifier text = true)
    (spelled : text.toList = c :: cs) : isNameStart c = true := by
  rw [isIdentifier, spelled, Bool.and_eq_true] at h
  exact h.1

theorem Kind.name_injective {k k' : Kind} (same : k.name = k'.name) : k = k' :=
  Option.some.inj (by rw [← ofName?_name, same, ofName?_name])

@[simp] theorem Kind.isIdentifier_name (kind : Kind) : isIdentifier kind.name = true :=
  (Callee.constructor kind).isIdentifier_name

namespace Constant

variable {c : Constant}

/-- The texts of constants that are no numbers. -/
def divisions : List String := ["(0.0 / 0.0)", "(1.0 / 0.0)", "(-1.0 / 0.0)"]

theorem finite_or_division (c : Constant) : c.IsFinite ∨ c.text ∈ divisions := by
  unfold IsFinite text divisions
  dsimp only
  split
  · exact .inr (by simp)
  · split
    · split <;> exact .inr (by simp)
    · exact .inl (by omega)

/-- The text of a number is a word that starts like no name. -/
theorem exists_word (finite : c.IsFinite) :
    ∃ d ds, c.text.toList = d :: ds ∧ isNameStart d = false ∧ IsWord (d :: ds) := by
  obtain ⟨whole, places, nonempty, -, digits, digits', -, same⟩ := decimalText_shape c.magnitude
  obtain ⟨d, ds, rfl⟩ := List.exists_cons_of_ne_nil nonempty
  have parts : ∀ x ∈ d :: ds ++ '.' :: places, isWordPart x = true := by
    intro x hx
    rcases List.mem_append.1 hx with hx | hx
    · exact isWordPart_of_isDigit (digits x hx)
    · rcases List.mem_cons.1 hx with rfl | hx
      · decide
      · exact isWordPart_of_isDigit (digits' x hx)
  rw [toList_text finite, same]
  cases c.isNegative with
  | true =>
    refine ⟨'-', _, rfl, by decide, by simp, fun x hx => ?_⟩
    rcases List.mem_cons.1 hx with rfl | hx
    · decide
    · exact parts x hx
  | false =>
    refine ⟨d, _, rfl, ?_, by simp, parts⟩
    have digit : startsNumeral d [] = true := by simp [startsNumeral, digits d List.mem_cons_self]
    rw [Bool.eq_false_iff]
    intro start
    rw [(nameStart_apart start).2] at digit
    cases digit

/-- Any other constant is written as the division of a number in parentheses. -/
theorem exists_division {text : String} (h : text ∈ divisions) :
    ∃ w ds, IsWord w ∧ text.toList = '(' :: (w ++ (' ' :: '/' :: ds)) := by
  simp only [divisions, List.mem_cons, List.not_mem_nil, or_false] at h
  rcases h with rfl | rfl | rfl
  · exact ⟨['0', '.', '0'], [' ', '0', '.', '0', ')'], ⟨by simp, List.all_eq_true.1 rfl⟩, by decide⟩
  · exact ⟨['1', '.', '0'], [' ', '0', '.', '0', ')'], ⟨by simp, List.all_eq_true.1 rfl⟩, by decide⟩
  · exact ⟨['-', '1', '.', '0'], [' ', '0', '.', '0', ')'], ⟨by simp, List.all_eq_true.1 rfl⟩, by decide⟩

/-- Two divisions at the start of one text are the same. -/
theorem division_unique {a b : String} {rest rest' : List Char} (ha : a ∈ divisions) (hb : b ∈ divisions)
    (same : a.toList ++ rest = b.toList ++ rest') : a = b := by
  simp only [divisions, List.mem_cons, List.not_mem_nil, or_false] at ha hb
  rcases ha with rfl | rfl | rfl <;> rcases hb with rfl | rfl | rfl <;> simp_all

end Constant

namespace Phrase

variable {a b lhs : Phrase} {cs ds w rest rest' tail : List Char}

/-! ### Values are read in one way -/

/-- Text that may stand directly behind a value. -/
def Follows (rest : List Char) : Prop := ∃ c tail, rest = c :: tail ∧ c ∈ [' ', ',', ')', ';']

theorem Follows.endsWord (h : Follows rest) : EndsWord rest := by
  obtain ⟨c, tail, rfl, mem⟩ := h
  have other : ∀ c ∈ [' ', ',', ')', ';'], isWordPart c = false := by
    simp only [List.forall_mem_cons]
    exact ⟨rfl, rfl, rfl, rfl, nofun⟩
  exact endsWord_cons (other c mem) tail

theorem Follows.ne_paren (h : Follows rest) : rest ≠ '(' :: tail := by
  obtain ⟨c, tail, rfl, mem⟩ := h
  intro same
  cases same
  exact absurd mem (by decide)

/-- Values that are one word. -/
inductive Leaf : Phrase → List Char → Prop where
  | name {text : String} : isIdentifier text = true → Leaf (.name text) text.toList
  | number {value : Constant} : value.IsFinite → Leaf (.literal value.text) value.text.toList

/-- The four forms of a value that can be told apart at its start. -/
inductive View : Phrase → List Char → Prop where
  | leaf {a : Phrase} {w : List Char} (leaf : Leaf a w) : View a w
  | division {text : String} (known : text ∈ Constant.divisions) : View (.literal text) text.toList
  | apply (callee : Callee) {first : Phrase} {more : List Phrase} {cs ds : List Char}
      (head : Spelled first cs) (tail : SpelledMore more ds) :
      View (.apply callee.name (first :: more)) (callee.name.toList ++ ('(' :: (cs ++ (ds ++ [')']))))
  | operator (op : Operator) {lhs rhs : Phrase} {cs ds : List Char} (left : Spelled lhs cs)
      (right : Spelled rhs ds) :
      View (.operator op.symbol lhs rhs)
        ('(' :: (cs ++ (' ' :: (op.symbol.toList ++ (' ' :: (ds ++ [')']))))))

theorem Spelled.view (h : Spelled a cs) : View a cs := by
  cases h with
  | name shape => exact .leaf (.name shape)
  | literal value =>
    rcases value.finite_or_division with finite | known
    · exact .leaf (.number finite)
    · exact .division known
  | apply callee head tail => exact .apply callee head tail
  | operator op left right => exact .operator op left right

theorem Leaf.isWord (h : Leaf a w) : IsWord w := by
  cases h with
  | name shape => exact isWord_of_isIdentifier shape
  | number finite =>
    obtain ⟨d, ds, same, -, word⟩ := Constant.exists_word finite
    exact same ▸ word

/-- No name looks like a number. -/
theorem Leaf.eq (h : Leaf a w) (h' : Leaf b w) : a = b := by
  have apart : ∀ {text : String} {value : Constant}, isIdentifier text = true → value.IsFinite →
      text.toList ≠ value.text.toList := by
    intro text value shape finite same
    obtain ⟨d, ds, spelled, other, -⟩ := Constant.exists_word finite
    rw [isNameStart_head shape (same.trans spelled)] at other
    cases other
  generalize written : w = v at h'
  cases h with
  | name shape =>
    cases h' with
    | name shape' => rw [String.toList_inj.1 written]
    | number finite => exact absurd written (apart shape finite)
  | number finite =>
    cases h' with
    | name shape => exact absurd written.symm (apart shape finite)
    | number finite' => rw [String.toList_inj.1 written]

/-- A value of one word is told apart from all others by what stands behind the word. -/
theorem Leaf.unique (h : Leaf a w) (h' : View b ds) (follows : Follows rest) (follows' : Follows rest')
    (same : w ++ rest = ds ++ rest') : a = b ∧ w = ds := by
  cases h' with
  | leaf leaf =>
    obtain ⟨rfl, -⟩ := h.isWord.append_inj leaf.isWord follows.endsWord follows'.endsWord same
    exact ⟨h.eq leaf, rfl⟩
  | division known =>
    obtain ⟨v, es, -, spelled⟩ := Constant.exists_division known
    rw [spelled] at same
    exact absurd same h.isWord.append_ne_paren
  | apply callee head tail =>
    rw [List.append_assoc] at same
    obtain ⟨-, paren⟩ := h.isWord.append_inj (isWord_of_isIdentifier callee.isIdentifier_name)
      follows.endsWord (endsWord_cons (by decide) _) same
    exact absurd paren follows.ne_paren
  | operator op left right => exact absurd same h.isWord.append_ne_paren

/-- What stands between the parentheses of a division is no operation: the sign of a division is no
operator. -/
theorem division_ne_operator {text : String} (op : Operator) (known : text ∈ Constant.divisions)
    (h : View lhs cs) : text.toList ++ rest ≠ '(' :: (cs ++ (' ' :: (op.symbol.toList ++ tail))) := by
  obtain ⟨w, es, word, spelled⟩ := Constant.exists_division known
  have blank : ∀ cs, EndsWord (' ' :: cs) := endsWord_cons (by decide)
  rw [spelled, List.cons_append, List.append_assoc]
  intro same
  have inner := List.cons.inj same |>.2
  cases h with
  | leaf leaf =>
    obtain ⟨-, after⟩ := word.append_inj leaf.isWord (blank _) (blank _) inner
    cases op <;> cases after
  | division known' =>
    obtain ⟨v, fs, -, spelled'⟩ := Constant.exists_division known'
    rw [spelled'] at inner
    exact word.append_ne_paren inner
  | apply callee head tail =>
    rw [List.append_assoc] at inner
    obtain ⟨-, after⟩ := word.append_inj (isWord_of_isIdentifier callee.isIdentifier_name) (blank _)
      (endsWord_cons (by decide) _) inner
    cases after
  | operator op' left right => exact word.append_ne_paren inner

theorem division_unique {text : String} (known : text ∈ Constant.divisions) (h : View b ds)
    (follows : Follows rest) (follows' : Follows rest') (same : text.toList ++ rest = ds ++ rest') :
    Phrase.literal text = b ∧ text.toList = ds := by
  cases h with
  | leaf leaf =>
    obtain ⟨rfl, rfl⟩ := leaf.unique (.division known) follows' follows same.symm
    exact ⟨rfl, rfl⟩
  | division known' =>
    rw [Constant.division_unique known known' same]
    exact ⟨rfl, rfl⟩
  | apply callee head tail =>
    obtain ⟨w, es, -, spelled⟩ := Constant.exists_division known
    rw [spelled, List.append_assoc] at same
    exact absurd same.symm (isWord_of_isIdentifier callee.isIdentifier_name).append_ne_paren
  | operator op left right =>
    rw [List.cons_append, List.append_assoc, List.cons_append, List.append_assoc] at same
    exact absurd same (division_ne_operator op known left.view)

theorem SpelledMore.follows {more : List Phrase} (h : SpelledMore more ds) (rest : List Char) :
    Follows (ds ++ ')' :: rest) := by
  cases h with
  | nil => exact ⟨')', rest, rfl, by simp⟩
  | cons _ _ => exact ⟨',', _, rfl, by simp⟩

theorem follows_blank (rest : List Char) : Follows (' ' :: rest) := ⟨' ', rest, rfl, by simp⟩

theorem follows_paren (rest : List Char) : Follows (')' :: rest) := ⟨')', rest, rfl, by simp⟩

mutual

/-- **A value is read in one way.**  By induction on the grammar: the first word and the character behind
it tell the form of the value, and the parts are read from left to right. -/
theorem Spelled.unique {a b : Phrase} {cs ds rest rest' : List Char} (h : Spelled a cs)
    (h' : Spelled b ds) (follows : Follows rest) (follows' : Follows rest')
    (same : cs ++ rest = ds ++ rest') : a = b ∧ cs = ds := by
  match h with
  | .name shape => exact (Leaf.name shape).unique h'.view follows follows' same
  | .literal value =>
    rcases value.finite_or_division with finite | known
    · exact (Leaf.number finite).unique h'.view follows follows' same
    · exact division_unique known h'.view follows follows' same
  | .apply callee head tail =>
    have word := isWord_of_isIdentifier callee.isIdentifier_name
    cases h'.view with
    | leaf leaf =>
      obtain ⟨rfl, rfl⟩ := leaf.unique (.apply callee head tail) follows' follows same.symm
      exact ⟨rfl, rfl⟩
    | division known =>
      exact absurd (division_unique known (.apply callee head tail) follows' follows same.symm).1 nofun
    | apply callee' head' tail' =>
      have word' := isWord_of_isIdentifier callee'.isIdentifier_name
      have paren : ∀ cs, EndsWord ('(' :: cs) := endsWord_cons (by decide)
      simp only [List.cons_append, List.append_assoc, List.nil_append] at same
      obtain ⟨name, arguments⟩ := word.append_inj word' (paren _) (paren _) same
      have inner := List.cons.inj arguments |>.2
      obtain ⟨rfl, rfl⟩ := head.unique head' (tail.follows rest) (tail'.follows rest') inner
      obtain ⟨rfl, rfl⟩ := tail.unique tail' (List.append_cancel_left inner)
      rw [String.toList_inj.1 name]
      exact ⟨rfl, rfl⟩
    | operator op left right =>
      rw [List.append_assoc] at same
      exact absurd same word.append_ne_paren
  | .operator op left right =>
    cases h'.view with
    | leaf leaf =>
      obtain ⟨rfl, rfl⟩ := leaf.unique (.operator op left right) follows' follows same.symm
      exact ⟨rfl, rfl⟩
    | division known =>
      exact absurd (division_unique known (.operator op left right) follows' follows same.symm).1 nofun
    | apply callee head tail =>
      rw [List.append_assoc] at same
      exact absurd same.symm (isWord_of_isIdentifier callee.isIdentifier_name).append_ne_paren
    | operator op' left' right' =>
      simp only [List.cons_append, List.append_assoc, List.cons.injEq, true_and, List.nil_append] at same
      obtain ⟨rfl, rfl⟩ := left.unique left' (follows_blank _) (follows_blank _) same
      have behind := List.cons.inj (List.append_cancel_left same) |>.2
      obtain rfl : op = op' := by
        cases op <;> cases op' <;> first | rfl | cases behind
      have last := List.cons.inj (List.append_cancel_left behind) |>.2
      obtain ⟨rfl, rfl⟩ := right.unique right' (follows_paren _) (follows_paren _) last
      exact ⟨rfl, rfl⟩

theorem SpelledMore.unique {as bs : List Phrase} {cs ds rest rest' : List Char} (h : SpelledMore as cs)
    (h' : SpelledMore bs ds) (same : cs ++ ')' :: rest = ds ++ ')' :: rest') : as = bs ∧ cs = ds := by
  match h with
  | .nil =>
    cases h' with
    | nil => exact ⟨rfl, rfl⟩
    | cons _ _ => cases same
  | .cons head tail =>
    cases h' with
    | nil => cases same
    | cons head' tail' =>
      simp only [List.cons_append, List.append_assoc, List.cons.injEq, true_and] at same
      obtain ⟨rfl, rfl⟩ := head.unique head' (tail.follows rest) (tail'.follows rest') same
      obtain ⟨rfl, rfl⟩ := tail.unique tail' (List.append_cancel_left same)
      exact ⟨rfl, rfl⟩

end

end Phrase

/-! ### Declarations -/

/-- The words in front of the kind of a declaration. -/
def Storage.words : Storage → List String
  | .attribute => ["attribute"]
  | .uniform none => ["uniform"]
  | .uniform (some precision) => ["uniform", precision.name]
  | .varying => ["varying"]

theorem Storage.words_injective {a b : Storage} (same : a.words = b.words) : a = b := by
  have names : ∀ {p q : Precision}, p.name = q.name → p = q := by
    intro p q
    cases p <;> cases q <;> decide
  match a, b, same with
  | .attribute, .attribute, _ => rfl
  | .varying, .varying, _ => rfl
  | .uniform none, .uniform none, _ => rfl
  | .uniform (some p), .uniform (some q), same =>
    rw [names (List.cons.inj (List.cons.inj same).2).1]
  | .uniform (some _), .attribute, same | .uniform (some _), .varying, same =>
    cases (List.cons.inj same).2

theorem Storage.isIdentifier_of_mem_words {storage : Storage} {word : String}
    (h : word ∈ storage.words) : isIdentifier word = true := by
  match storage, h with
  | .attribute, h | .varying, h | .uniform none, h =>
    rw [List.mem_singleton.1 h]
    decide
  | .uniform (some precision), h =>
    rcases List.mem_cons.1 h with rfl | h
    · decide
    · rw [List.mem_singleton.1 h]
      cases precision <;> decide

namespace Declaration

/-- The words of a declaration: its storage, its kind and its name. -/
def words (d : Declaration) : List String := d.storage.words ++ [d.kind.name, d.name]

theorem toList_text (d : Declaration) :
    d.text.toList = [' '].intercalate (d.words.map String.toList) ++ [';'] := by
  obtain ⟨storage, kind, name⟩ := d
  match storage with
  | .attribute | .varying | .uniform none | .uniform (some _) =>
    simp [text, Storage.text, words, Storage.words, List.intercalate, List.intersperse]

theorem isWord_of_mem_words {d : Declaration} (declarable : isIdentifier d.name = true) :
    ∀ word ∈ d.words.map String.toList, IsWord word := by
  intro word mem
  obtain ⟨text, listed, rfl⟩ := List.mem_map.1 mem
  refine isWord_of_isIdentifier ?_
  rcases List.mem_append.1 listed with listed | listed
  · exact Storage.isIdentifier_of_mem_words listed
  · rcases List.mem_cons.1 listed with rfl | listed
    · exact d.kind.isIdentifier_name
    · rwa [List.mem_singleton.1 listed]

/-- A declaration is read in one way: its line, cut at the blanks, is its words. -/
theorem text_inj {d d' : Declaration} (declarable : isIdentifier d.name = true)
    (declarable' : isIdentifier d'.name = true) (same : d.text.toList = d'.text.toList) : d = d' := by
  have cut : ∀ {d : Declaration}, isIdentifier d.name = true →
      List.splitOn ' ' ([' '].intercalate (d.words.map String.toList)) = d.words.map String.toList := by
    intro d declarable
    refine List.splitOn_intercalate ' ' (fun word mem blank => ?_) (by simp [words])
    exact absurd ((isWord_of_mem_words declarable word mem).parts ' ' blank) (by decide)
  rw [toList_text, toList_text, List.append_left_inj] at same
  have spelled : d.words.map String.toList = d'.words.map String.toList := by
    rw [← cut declarable, same, cut declarable']
  have wordsSame : d.words = d'.words :=
    List.map_injective_iff.2 (fun _ _ => String.toList_inj.1) spelled
  obtain ⟨storage, ends⟩ := List.append_inj' wordsSame rfl
  obtain ⟨kinds, ends⟩ := List.cons.inj ends
  obtain ⟨names, -⟩ := List.cons.inj ends
  obtain ⟨s, k, n⟩ := d
  obtain ⟨s', k', n'⟩ := d'
  obtain rfl : s = s' := Storage.words_injective storage
  obtain rfl : k = k' := Kind.name_injective kinds
  obtain rfl : n = n' := names
  rfl

end Declaration

/-! ### Stages taken apart -/

/-- A statement taken apart; the definition of a local has a kind. -/
structure Assignment where
  kind : Option Kind
  target : String
  value : Phrase

namespace Assignment

/-- The lines of statements: `K N = E;` and `N = E;`. -/
inductive Spelled : Assignment → List Char → Prop where
  | define (kind : Kind) {name : String} {value : Phrase} {cs : List Char} :
      isIdentifier name = true → value.Spelled cs →
      Spelled ⟨some kind, name, value⟩
        (kind.name.toList ++ (' ' :: (name.toList ++ (' ' :: '=' :: ' ' :: (cs ++ [';'])))))
  | assign {name : String} {value : Phrase} {cs : List Char} :
      isIdentifier name = true → value.Spelled cs →
      Spelled ⟨none, name, value⟩ (name.toList ++ (' ' :: '=' :: ' ' :: (cs ++ [';'])))

theorem blank_ends (rest : List Char) : EndsWord (' ' :: rest) := endsWord_cons (by decide) rest

/-- A value in front of the semicolon at the end of a line is read in one way. -/
theorem value_unique {a b : Phrase} {cs ds : List Char} (h : a.Spelled cs) (h' : b.Spelled ds)
    (same : cs ++ [';'] = ds ++ [';']) : a = b :=
  (h.unique h' ⟨';', [], rfl, by simp⟩ ⟨';', [], rfl, by simp⟩ same).1

/-- Behind the kind of a local stands its name, and no equals sign. -/
theorem define_ne_assign {kind : Kind} {name name' : String} {cs ds : List Char}
    (shape : isIdentifier name = true) (shape' : isIdentifier name' = true) :
    kind.name.toList ++ (' ' :: (name.toList ++ cs)) ≠ name'.toList ++ (' ' :: '=' :: ds) := by
  intro same
  obtain ⟨-, behind⟩ := (isWord_of_isIdentifier kind.isIdentifier_name).append_inj
    (isWord_of_isIdentifier shape') (blank_ends _) (blank_ends _) same
  obtain ⟨nonempty, parts⟩ := isWord_of_isIdentifier shape
  obtain ⟨c, rest, spelled⟩ := List.exists_cons_of_ne_nil nonempty
  rw [spelled] at behind parts
  cases behind
  exact absurd (parts '=' List.mem_cons_self) (by decide)

theorem Spelled.unique {a b : Assignment} {line : List Char} (h : Spelled a line) (h' : Spelled b line) :
    a = b := by
  generalize written : line = line' at h'
  cases h with
  | define kind shape value =>
    cases h' with
    | define kind' shape' value' =>
      obtain ⟨kinds, behind⟩ := (isWord_of_isIdentifier kind.isIdentifier_name).append_inj
        (isWord_of_isIdentifier kind'.isIdentifier_name) (blank_ends _) (blank_ends _) written
      obtain ⟨names, behind⟩ := (isWord_of_isIdentifier shape).append_inj (isWord_of_isIdentifier shape')
        (blank_ends _) (blank_ends _) (List.cons.inj behind).2
      obtain rfl : kind = kind' := Kind.name_injective (String.toList_inj.1 kinds)
      simp only [List.cons.injEq, true_and] at behind
      rw [String.toList_inj.1 names, value_unique value value' behind]
    | assign shape' value' => exact absurd written (define_ne_assign shape shape')
  | assign shape value =>
    cases h' with
    | define kind' shape' value' => exact absurd written.symm (define_ne_assign shape' shape)
    | assign shape' value' =>
      obtain ⟨names, behind⟩ := (isWord_of_isIdentifier shape).append_inj (isWord_of_isIdentifier shape')
        (blank_ends _) (blank_ends _) written
      simp only [List.cons.injEq, true_and] at behind
      rw [String.toList_inj.1 names, value_unique value value' behind]

end Assignment

/-- A stage taken apart: what stands in its header, its declarations and its statements. -/
structure Layout where
  version : Option UInt32
  precision : Option Precision
  declarations : List Declaration
  body : List Assignment

namespace Layout

/-- The line of a version. -/
def versionLine (version : UInt32) : List Char := ("#version " ++ toString version.toNat).toList

/-- The line of a precision. -/
def precisionLine (precision : Precision) : List Char :=
  ("precision " ++ precision.name ++ " float;").toList

/-- The lines in front of the declarations. -/
def header (l : Layout) : List (List Char) :=
  (l.version.map versionLine).toList ++ (l.precision.map precisionLine).toList

/-- The text, cut at the line ends, is made up of the header, the declarations, an empty line, and the
statements between the two lines of the entry point; the last line ends the text. -/
structure Spells (l : Layout) (text : String) : Prop where
  declarable : ∀ d ∈ l.declarations, isIdentifier d.name = true
  lines : ∃ body, List.Forall₂ Assignment.Spelled l.body body ∧
    List.splitOn '\n' text.toList =
      l.header ++ (l.declarations.map (·.text.toList) ++ ([] :: "void main() \x7b".toList ::
        (body.map ("    ".toList ++ ·) ++ ["\x7d".toList, []])))

/-- The lines of a header are told apart from declarations by their first characters. -/
def isHeaderLine (line : List Char) : Bool := line.head? == some '#' || line.head? == some 'p'

theorem isHeaderLine_header (l : Layout) : ∀ line ∈ l.header, isHeaderLine line = true := by
  intro line mem
  rcases List.mem_append.1 mem with mem | mem
  · obtain ⟨version, -, rfl⟩ := Option.map_eq_some_iff.1 (Option.mem_toList.1 mem)
    simp [isHeaderLine, versionLine]
  · obtain ⟨precision, -, rfl⟩ := Option.map_eq_some_iff.1 (Option.mem_toList.1 mem)
    simp [isHeaderLine, precisionLine]

theorem isHeaderLine_declaration (d : Declaration) :
    isHeaderLine d.text.toList = false ∧ d.text.toList ≠ [] := by
  obtain ⟨storage, kind, name⟩ := d
  match storage with
  | .attribute | .varying | .uniform none | .uniform (some _) =>
    simp [Declaration.text, Storage.text, isHeaderLine]

theorem header_inj {l l' : Layout} (same : l.header = l'.header) :
    l.version = l'.version ∧ l.precision = l'.precision := by
  have versions : ∀ {n m : UInt32}, versionLine n = versionLine m → n = m := fun h =>
    UInt32.toNat_inj.1 (append_toString_injective _ (String.toList_inj.1 h))
  have precisions : ∀ {p q : Precision}, precisionLine p = precisionLine q → p = q := by
    intro p q
    cases p <;> cases q <;> decide
  have apart : ∀ {n : UInt32} {p : Precision}, versionLine n ≠ precisionLine p := by
    intro n p h
    have heads := congrArg List.head? h
    simp [versionLine, precisionLine] at heads
  obtain ⟨version, precision, _, _⟩ := l
  obtain ⟨version', precision', _, _⟩ := l'
  match version, precision, version', precision' with
  | none, none, none, none => exact ⟨rfl, rfl⟩
  | none, some p, none, some q => exact ⟨rfl, by rw [precisions (List.cons.inj same).1]⟩
  | some n, none, some m, none => exact ⟨by rw [versions (List.cons.inj same).1], rfl⟩
  | some n, some p, some m, some q =>
    obtain ⟨first, second⟩ := List.cons.inj same
    exact ⟨by rw [versions first], by rw [precisions (List.cons.inj second).1]⟩
  | some n, none, none, some q => exact absurd (List.cons.inj same).1 apart
  | none, some p, some m, none => exact absurd (List.cons.inj same).1.symm apart
  | none, none, none, some _ | none, none, some _, none | none, none, some _, some _
  | none, some _, none, none | some _, none, none, none | some _, some _, none, none => cases same
  | none, some _, some _, some _ | some _, none, some _, some _ | some _, some _, none, some _
  | some _, some _, some _, none => simp [header] at same

theorem body_inj {as bs : List Assignment} {lines : List (List Char)}
    (h : List.Forall₂ Assignment.Spelled as lines) (h' : List.Forall₂ Assignment.Spelled bs lines) :
    as = bs := by
  induction h generalizing bs with
  | nil =>
    cases h'
    rfl
  | cons first _ ih =>
    cases h' with
    | cons first' rest' => rw [first.unique first', ih rest']

theorem declarations_inj {ds es : List Declaration} (declarable : ∀ d ∈ ds, isIdentifier d.name = true)
    (declarable' : ∀ d ∈ es, isIdentifier d.name = true)
    (same : ds.map (·.text.toList) = es.map (·.text.toList)) : ds = es := by
  induction ds generalizing es with
  | nil => exact (List.map_eq_nil_iff.1 same.symm).symm
  | cons d ds ih =>
    cases es with
    | nil => cases same
    | cons e es =>
      obtain ⟨first, rest⟩ := List.cons.inj same
      rw [List.forall_mem_cons] at declarable declarable'
      rw [Declaration.text_inj declarable.1 declarable'.1 first, ih declarable.2 declarable'.2 rest]

/-- **A text is taken apart in one way.**  The header ends where no line starts like one, the declarations
end at the first empty line, and each line is read in one way. -/
theorem Spells.unique {l l' : Layout} {text : String} (h : l.Spells text) (h' : l'.Spells text) :
    l = l' := by
  obtain ⟨declarable, body, spelled, lines⟩ := h
  obtain ⟨declarable', body', spelled', lines'⟩ := h'
  have afterHeader : ∀ (ds : List Declaration) (rest : List (List Char)) (line : List Char),
      (ds.map (·.text.toList) ++ [] :: rest).head? = some line → isHeaderLine line = false := by
    intro ds rest line first
    cases ds with
    | nil =>
      cases first
      rfl
    | cons d ds =>
      cases first
      exact (isHeaderLine_declaration d).1
  have nonempty : ∀ (ds : List Declaration), ∀ line ∈ ds.map (·.text.toList),
      (!List.isEmpty line) = true := by
    intro ds line mem
    obtain ⟨d, -, rfl⟩ := List.mem_map.1 mem
    simpa using (isHeaderLine_declaration d).2
  have atEmpty : ∀ (rest : List (List Char)) (line : List Char),
      ([] :: rest).head? = some line → (!List.isEmpty line) = false := by
    intro rest line first
    cases first
    rfl
  obtain ⟨headers, rest⟩ := span_inj l.isHeaderLine_header l'.isHeaderLine_header (afterHeader _ _)
    (afterHeader _ _) (lines.symm.trans lines')
  obtain ⟨declared, rest⟩ := span_inj (nonempty _) (nonempty _) (atEmpty _) (atEmpty _) rest
  simp only [List.cons.injEq, true_and] at rest
  have bodies : body = body' :=
    List.map_injective_iff.2 (fun _ _ => List.append_cancel_left) (List.append_inj_left' rest rfl)
  obtain ⟨version, precision⟩ := header_inj headers
  have declarations := declarations_inj declarable declarable' declared
  subst bodies
  have statements := body_inj spelled spelled'
  obtain ⟨_, _, _, _⟩ := l
  obtain ⟨_, _, _, _⟩ := l'
  simp_all

end Layout

end ShaderDag
