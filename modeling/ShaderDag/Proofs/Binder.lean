import Mathlib.Data.List.Nodup
import ShaderDag.Name
import ShaderDag.Proofs.Lists

/-!
# Names that never collide

* `checkIdentifier_numbered` — a word with a number behind it may be declared;
* `Binder.uniqueName_unused` — a name made from a base is free;
* `exists_varyingStem`, `varyingLead_clear` — the names of varyings start with the first stem that no reserved
  name and no taken one starts with;
* `Binder.bind_eq_ok_iff` — exactly when a node can be given a name, and what changes;
* `Binder.Sound` — what holds of every binder that grew from the reserved names;
* `Binder.Grown` — the binders that the operations lead to, all of them sound;
* `Binder.bindAll_eq_ok_iff`, `Binder.bindAll_error` — many names at once.
-/

namespace ShaderDag

/-! ### Words with numbers -/

theorem isDigit_of_mem_toString {n : Nat} {c : Char} (h : c ∈ (toString n).toList) :
    isDigit c = true := by
  have mem : c ∈ Nat.toDigits 10 n := by rwa [← Nat.toList_repr]
  have digit := Nat.isDigit_of_mem_toDigits (by decide) (by decide) mem
  simp only [Char.isDigit, Bool.and_eq_true, decide_eq_true_eq] at digit
  simp only [isDigit, Bool.and_eq_true, decide_eq_true_eq]
  exact digit

theorem append_toString_injective (lead : String) {m n : Nat}
    (h : lead ++ toString m = lead ++ toString n) : m = n := by
  have same : m.repr = n.repr := (String.append_right_inj lead).1 h
  have digits : Nat.toDigits 10 m = Nat.toDigits 10 n := by
    rw [← Nat.toList_repr, ← Nat.toList_repr, same]
  rw [← Nat.ofDigitChars_ten_toDigits (n := m), digits, Nat.ofDigitChars_ten_toDigits]

@[simp] theorem startsWith_append (lead rest : String) : startsWith lead (lead ++ rest) = true := by
  rw [startsWith, List.isPrefixOf_iff_prefix, String.toList_append]
  exact List.prefix_append _ _

/-- A word may be declared with more behind it if its first letter is not that of the built-in
variables. -/
theorem checkIdentifier_append {lead rest : String} (word : isIdentifier lead = true)
    (other : lead.toList.head? ≠ some 'g') (parts : rest.toList.all isNamePart = true) :
    checkIdentifier (lead ++ rest) = .ok () := by
  cases spelled : lead.toList with
  | nil => simp [isIdentifier, spelled] at word
  | cons c cs =>
    rw [spelled, List.head?_cons, ne_eq, Option.some.injEq] at other
    simp only [isIdentifier, spelled, Bool.and_eq_true] at word
    have longer : (lead ++ rest).toList = c :: (cs ++ rest.toList) := by
      rw [String.toList_append, spelled, List.cons_append]
    have shape : isIdentifier (lead ++ rest) = true := by
      rw [isIdentifier, longer]
      simp only [List.all_append, word.1, word.2, parts, Bool.and_true]
    have clear : startsWith builtinLead (lead ++ rest) = false := by
      rw [startsWith, longer, show builtinLead.toList = ['g', 'l', '_'] from by decide,
        List.isPrefixOf_cons_cons, beq_false_of_ne (Ne.symm other), Bool.false_and]
    simp [checkIdentifier, shape, clear]

theorem checkIdentifier_numbered {lead : String} (n : Nat) (word : isIdentifier lead = true)
    (other : lead.toList.head? ≠ some 'g') : checkIdentifier (lead ++ toString n) = .ok () := by
  refine checkIdentifier_append word other ?_
  rw [List.all_eq_true]
  intro d hd
  rw [isNamePart, isDigit_of_mem_toString hd, Bool.or_true]

/-! ### Names of varyings -/

@[simp] theorem varyingStem_toList (underscores : Nat) :
    (varyingStem underscores).toList = "varying".toList ++ List.replicate underscores '_' := by
  rw [varyingStem, String.toList_append, String.toList_ofList (l := List.replicate underscores '_')]

theorem checkIdentifier_varying (underscores n : Nat) :
    checkIdentifier (varyingStem underscores ++ toString n) = .ok () := by
  have word : "varying".toList = ['v', 'a', 'r', 'y', 'i', 'n', 'g'] := by decide
  refine checkIdentifier_numbered n ?_ ?_
  · rw [isIdentifier, varyingStem_toList, word]
    have : (List.replicate underscores '_').all isNamePart = true := by
      simp [List.all_replicate, isNamePart, isNameStart]
    simp only [List.cons_append, List.nil_append, List.all_cons, this]
    decide
  · rw [varyingStem_toList, word]
    simp

theorem length_le_longestName {names : List String} {name : String} (h : name ∈ names) :
    name.toList.length ≤ longestName names := by
  have grows : ∀ (names : List String) (n : Nat),
      n ≤ names.foldl (fun n s => max n s.toList.length) n ∧
      ∀ name ∈ names, name.toList.length ≤ names.foldl (fun n s => max n s.toList.length) n := by
    intro names
    induction names with
    | nil => simp
    | cons s names ih =>
      intro n
      obtain ⟨low, all⟩ := ih (max n s.toList.length)
      refine ⟨by rw [List.foldl_cons]; omega, ?_⟩
      intro name mem
      rw [List.foldl_cons]
      rcases List.mem_cons.1 mem with rfl | mem
      · omega
      · exact all name mem
  exact (grows names 0).2 name h

/-- No reserved name and no taken one starts with the stem. -/
def StemClear (taken : List String) (underscores : Nat) : Prop :=
  ∀ name ∈ reservedNames ++ taken, startsWith (varyingStem underscores) name = false

theorem stemClear_iff {taken : List String} {underscores : Nat} :
    (!(reservedNames ++ taken).any (startsWith (varyingStem underscores))) = true ↔
      StemClear taken underscores := by
  simp only [Bool.not_eq_true', List.any_eq_false, Bool.not_eq_true, StemClear]

/-- A stem that is longer than every name starts none of them. -/
theorem stemClear_of_long (taken : List String) :
    StemClear taken (longestName (reservedNames ++ taken) + 1) := by
  intro name mem
  rw [startsWith, Bool.eq_false_iff, ne_eq, List.isPrefixOf_iff_prefix]
  intro lead
  have long := lead.length_le
  rw [varyingStem_toList, List.length_append, List.length_replicate] at long
  have short := length_le_longestName mem
  omega

/-- The names of varyings start with the first stem that is clear. -/
theorem exists_varyingStem (taken : List String) :
    ∃ n, varyingLead taken = varyingStem n ∧ 1 ≤ n ∧ StemClear taken n ∧
      ∀ m, 1 ≤ m → m < n → ¬StemClear taken m := by
  unfold varyingLead
  dsimp only
  cases found : (List.range' 1 (longestName (reservedNames ++ taken) + 1)).find? fun underscores =>
      !(reservedNames ++ taken).any (startsWith (varyingStem underscores)) with
  | some n =>
    obtain ⟨clear, mem, before⟩ := List.find?_range'_eq_some.1 found
    refine ⟨n, rfl, (List.mem_range'_1.1 mem).1, stemClear_iff.1 clear, fun m low high h => ?_⟩
    have collides := before m low high
    rw [stemClear_iff.2 h] at collides
    exact absurd collides (by decide)
  | none =>
    have last : longestName (reservedNames ++ taken) + 1 ∈
        List.range' 1 (longestName (reservedNames ++ taken) + 1) :=
      List.mem_range'_1.2 ⟨by omega, by omega⟩
    exact absurd (stemClear_iff.2 (stemClear_of_long taken)) (List.find?_eq_none.1 found _ last)

/-- The names of varyings start with a stem that starts no reserved name and no taken one. -/
theorem varyingLead_clear (taken : List String) :
    ∃ underscores, varyingLead taken = varyingStem underscores ∧
      ∀ name ∈ reservedNames ++ taken, startsWith (varyingStem underscores) name = false := by
  obtain ⟨n, lead, -, clear, -⟩ := exists_varyingStem taken
  exact ⟨n, lead, clear⟩

namespace Binder

/-! ### Free names -/

theorem suffixed_injective (base : String) : Function.Injective (suffixed base) :=
  fun _ _ h => append_toString_injective (base ++ "_") h

/-- The name of a local may be declared. -/
theorem checkIdentifier_suffixed (kind : Kind) (n : Nat) :
    checkIdentifier (suffixed kind.name n) = .ok () :=
  checkIdentifier_numbered n (by cases kind <;> decide) (by cases kind <;> decide)

/-- Of one more suffixes than there are names in use, one is free. -/
theorem suffixed_freeSuffix_unused (b : Binder) (base : String) (start : Nat) :
    suffixed base (b.freeSuffix base start) ∉ b.used := by
  unfold freeSuffix
  cases found : (List.range' start (b.used.length + 1)).find? fun n => !b.isUsed (suffixed base n) with
  | some n =>
    have free := List.find?_some found
    simpa [isUsed] using free
  | none =>
    have taken : (List.range' start (b.used.length + 1)).map (suffixed base) ⊆ b.used := by
      intro name mem
      obtain ⟨n, hn, rfl⟩ := List.mem_map.1 mem
      simpa [isUsed] using List.find?_eq_none.1 found n hn
    have distinct : ((List.range' start (b.used.length + 1)).map (suffixed base)).Nodup :=
      List.Nodup.map (suffixed_injective base) List.nodup_range'
    have := distinct.length_le_of_subset taken
    rw [List.length_map, List.length_range'] at this
    omega

theorem uniqueName_unused (b : Binder) (base : String) : (b.uniqueName base).1 ∉ b.used := by
  unfold uniqueName
  split
  · exact b.suffixed_freeSuffix_unused base _
  · next free => simpa [isUsed] using free

@[simp]
theorem uniqueName_used (b : Binder) (base : String) : (b.uniqueName base).2.used = b.used := by
  unfold uniqueName
  split <;> rfl

@[simp]
theorem uniqueName_bound (b : Binder) (base : String) : (b.uniqueName base).2.bound = b.bound := by
  unfold uniqueName
  split <;> rfl

/-- A free name is made without a change to the names in use and to the bound ones. -/
theorem uniqueName_eq {b b₁ : Binder} {base name : String} (h : b.uniqueName base = (name, b₁)) :
    name ∉ b.used ∧ b₁.used = b.used ∧ b₁.bound = b.bound := by
  have unused := b.uniqueName_unused base
  have used := b.uniqueName_used base
  have bound := b.uniqueName_bound base
  rw [h] at unused used bound
  exact ⟨unused, used, bound⟩

/-- A free name made from the name of a kind may be declared, be it numbered or not. -/
theorem checkIdentifier_uniqueName (b : Binder) (kind : Kind) :
    checkIdentifier (b.uniqueName kind.name).1 = .ok () := by
  have plain : checkIdentifier kind.name = .ok () := by cases kind <;> decide
  unfold uniqueName
  split
  · exact checkIdentifier_suffixed kind _
  · exact plain

/-! ### Giving names -/

/-- The binder in which a node has a name. -/
def withName (b : Binder) (id : Nat) (name : String) : Binder :=
  { b with used := name :: b.used, bound := (id, name) :: b.bound }

theorem bind_eq (b : Binder) (id : Nat) (name : String) :
    b.bind id name =
      match checkIdentifier name, b.nameOf? id with
      | .error f, _ => .error f
      | .ok (), some existing => .error (Failure.ofCause (.alreadyBound id existing))
      | .ok (), none =>
        if b.isUsed name then .error (Failure.ofCause (.nameInUse name))
        else .ok (b.withName id name) := by
  unfold bind reserve
  cases declarable : checkIdentifier name with
  | error f => rfl
  | ok _ =>
    cases b.nameOf? id with
    | some existing => rfl
    | none => cases used : b.isUsed name <;> rfl

theorem bind_eq_ok_iff {b b' : Binder} {id : Nat} {name : String} :
    b.bind id name = .ok b' ↔ checkIdentifier name = .ok () ∧ b.nameOf? id = none ∧
      name ∉ b.used ∧ b' = b.withName id name := by
  rw [bind_eq]
  cases checkIdentifier name with
  | error f => simp
  | ok _ =>
    cases b.nameOf? id with
    | some existing => simp
    | none => by_cases used : name ∈ b.used <;> simp [isUsed, used, eq_comm]

/-- A node without a name can be given a free name made from the name of a kind. -/
theorem bind_uniqueName {b b₁ : Binder} {kind : Kind} {id : Nat} {name : String}
    (fresh : b.uniqueName kind.name = (name, b₁)) (free : b.nameOf? id = none) :
    b₁.bind id name = .ok (b₁.withName id name) := by
  obtain ⟨unused, used, bound⟩ := uniqueName_eq fresh
  have declarable := b.checkIdentifier_uniqueName kind
  rw [fresh] at declarable
  refine bind_eq_ok_iff.2 ⟨declarable, ?_, used ▸ unused, rfl⟩
  rw [nameOf?, bound]
  exact free

end Binder

/-- A failure about a name as such: it may not be declared, or it is in use. -/
def Failure.Blames (f : Failure) (name : String) : Prop :=
  f = .ofCause (.notIdentifier name) ∨ f = .ofCause (.builtinName name builtinLead) ∨
    f = .ofCause (.nameInUse name)

theorem Failure.Blames.family {f : Failure} {name : String} (h : f.Blames name) :
    f.family = .validation ∨ f.family = .nameConflict := by
  rcases h with rfl | rfl | rfl
  · exact .inl rfl
  · exact .inl rfl
  · exact .inr rfl

theorem checkIdentifier_error {name : String} {f : Failure} (h : checkIdentifier name = .error f) :
    f.Blames name := by
  unfold checkIdentifier at h
  split at h
  · cases h
    exact .inl rfl
  · split at h
    · cases h
      exact .inr (.inl rfl)
    · cases h

/-- A name that may be declared does not look built in. -/
theorem clear_of_checkIdentifier {name : String} (h : checkIdentifier name = .ok ()) :
    startsWith builtinLead name = false := by
  unfold checkIdentifier at h
  split at h
  · cases h
  · split at h
    · cases h
    · next clear => simpa using clear

namespace Binder

variable {b b' : Binder} {id : Nat} {name : String} {entries rest : List (Nat × String)}

theorem bind_error {f : Failure} (unbound : b.nameOf? id = none) (h : b.bind id name = .error f) :
    f.Blames name := by
  rw [bind_eq, unbound] at h
  cases declarable : checkIdentifier name with
  | error g =>
    rw [declarable] at h
    cases h
    exact checkIdentifier_error declarable
  | ok _ =>
    rw [declarable] at h
    dsimp only at h
    split at h
    · cases h
      exact .inr (.inr rfl)
    · cases h

theorem nameOf?_withName (other : Nat) :
    (b.withName id name).nameOf? other = if other = id then some name else b.nameOf? other := by
  rw [nameOf?, withName, List.lookup_cons]
  by_cases same : other = id
  · simp [same]
  · rw [beq_false_of_ne same, if_neg same]
    rfl

/-- The names after a free name was made and given to a node. -/
theorem nameOf?_define {b₁ : Binder} {base : String} (fresh : b.uniqueName base = (name, b₁))
    (other : Nat) :
    (b₁.withName id name).nameOf? other = if other = id then some name else b.nameOf? other := by
  rw [nameOf?_withName, nameOf?, nameOf?, (uniqueName_eq fresh).2.2]

theorem nameOf?_eq_none_iff : b.nameOf? id = none ↔ id ∉ b.bound.map (·.1) := by
  rw [nameOf?, List.lookup_eq_none_iff]
  simp only [List.mem_map, not_exists, not_and, bne_iff_ne]
  exact ⟨fun h e mem same => h e mem same.symm, fun h e mem same => h e mem same.symm⟩

/-! ### Many names at once -/

/-- Gives names to nodes one after the other. -/
def bindAll (b : Binder) (entries : List (Nat × String)) : Except Failure Binder :=
  entries.foldlM (fun b (id, name) => b.bind id name) b

theorem bindAll_cons :
    b.bindAll ((id, name) :: rest) = b.bind id name >>= fun b' => b'.bindAll rest := by
  rw [bindAll, List.foldlM_cons]
  rfl

theorem bindAll_append : b.bindAll (entries ++ rest) = b.bindAll entries >>= fun b' => b'.bindAll rest :=
  List.foldlM_append

/-- The binder in which some more nodes have names. -/
def withAll (b : Binder) (entries : List (Nat × String)) : Binder :=
  { b with used := (entries.map (·.2)).reverse ++ b.used, bound := entries.reverse ++ b.bound }

theorem withAll_cons : b.withAll ((id, name) :: rest) = (b.withName id name).withAll rest := by
  simp [withAll, withName]

/-- The names can all be given: they may be declared, and they and their nodes are new. -/
structure Bindable (b : Binder) (entries : List (Nat × String)) : Prop where
  declarable : ∀ entry ∈ entries, checkIdentifier entry.2 = .ok ()
  unused : ∀ entry ∈ entries, entry.2 ∉ b.used
  unbound : ∀ entry ∈ entries, b.nameOf? entry.1 = none
  names_nodup : (entries.map (·.2)).Nodup
  ids_nodup : (entries.map (·.1)).Nodup

theorem bindable_cons :
    b.Bindable ((id, name) :: rest) ↔ (checkIdentifier name = .ok () ∧ b.nameOf? id = none ∧
      name ∉ b.used) ∧ (b.withName id name).Bindable rest := by
  constructor
  · rintro ⟨declarable, unused, unbound, names, ids⟩
    rw [List.map_cons, List.nodup_cons] at names ids
    refine ⟨⟨declarable _ List.mem_cons_self, unbound _ List.mem_cons_self,
      unused _ List.mem_cons_self⟩, ?_, ?_, ?_, names.2, ids.2⟩
    · exact fun entry mem => declarable entry (List.mem_cons_of_mem _ mem)
    · intro entry mem used
      rcases List.mem_cons.1 used with same | used
      · exact names.1 (List.mem_map.2 ⟨entry, mem, same⟩)
      · exact unused entry (List.mem_cons_of_mem _ mem) used
    · intro entry mem
      have new : entry.1 ≠ id := fun same => ids.1 (List.mem_map.2 ⟨entry, mem, same⟩)
      rw [nameOf?_withName, if_neg new]
      exact unbound entry (List.mem_cons_of_mem _ mem)
  · rintro ⟨⟨hn, hid, fresh⟩, declarable, unused, unbound, names, ids⟩
    -- a later entry with the same name or node would not be new
    have newName : name ∉ rest.map (·.2) := by
      intro mem
      obtain ⟨entry, mem, same⟩ := List.mem_map.1 mem
      exact unused entry mem (same ▸ List.mem_cons_self)
    have newId : id ∉ rest.map (·.1) := by
      intro mem
      obtain ⟨entry, mem, same⟩ := List.mem_map.1 mem
      have := unbound entry mem
      rw [nameOf?_withName, if_pos same] at this
      exact absurd this (by simp)
    refine ⟨?_, ?_, ?_, List.nodup_cons.2 ⟨newName, names⟩, List.nodup_cons.2 ⟨newId, ids⟩⟩
    · exact List.forall_mem_cons.2 ⟨hn, declarable⟩
    · exact List.forall_mem_cons.2
        ⟨fresh, fun entry mem used => unused entry mem (List.mem_cons_of_mem _ used)⟩
    · refine List.forall_mem_cons.2 ⟨hid, fun entry mem => ?_⟩
      have := unbound entry mem
      rw [nameOf?_withName] at this
      split at this
      · exact absurd this (by simp)
      · exact this

/-- Names can be given one after the other exactly if they can all be given. -/
theorem bindAll_eq_ok_iff : b.bindAll entries = .ok b' ↔ b.Bindable entries ∧ b' = b.withAll entries := by
  induction entries generalizing b with
  | nil =>
    have trivially : b.Bindable [] := ⟨by simp, by simp, by simp, by simp, by simp⟩
    simp only [bindAll, List.foldlM_nil, trivially, true_and, withAll, List.map_nil, List.reverse_nil,
      List.nil_append]
    exact ⟨fun h => (Except.ok.inj h).symm, fun h => h ▸ rfl⟩
  | cons entry rest ih =>
    obtain ⟨id, name⟩ := entry
    rw [bindAll_cons, bindable_cons, withAll_cons]
    constructor
    · intro h
      cases first : b.bind id name with
      | error f =>
        rw [first] at h
        cases h
      | ok b₁ =>
        rw [first] at h
        obtain ⟨hn, hid, fresh, rfl⟩ := bind_eq_ok_iff.1 first
        obtain ⟨restOk, rfl⟩ := ih.1 h
        exact ⟨⟨⟨hn, hid, fresh⟩, restOk⟩, rfl⟩
    · rintro ⟨⟨⟨hn, hid, fresh⟩, restOk⟩, rfl⟩
      rw [bind_eq_ok_iff.2 ⟨hn, hid, fresh, rfl⟩]
      exact ih.2 ⟨restOk, rfl⟩

/-- If the nodes are new and distinct, then a failure to give them names is about one of the names. -/
theorem bindAll_error {f : Failure} (unbound : ∀ entry ∈ entries, b.nameOf? entry.1 = none)
    (ids : (entries.map (·.1)).Nodup) (h : b.bindAll entries = .error f) :
    ∃ entry ∈ entries, f.Blames entry.2 := by
  induction entries generalizing b with
  | nil => cases h
  | cons entry rest ih =>
    obtain ⟨id, name⟩ := entry
    rw [List.map_cons, List.nodup_cons] at ids
    rw [bindAll_cons] at h
    cases first : b.bind id name with
    | error g =>
      rw [first] at h
      cases h
      exact ⟨_, List.mem_cons_self, bind_error (unbound _ List.mem_cons_self) first⟩
    | ok b₁ =>
      rw [first] at h
      obtain ⟨-, -, -, rfl⟩ := bind_eq_ok_iff.1 first
      have still : ∀ entry ∈ rest, (b.withName id name).nameOf? entry.1 = none := by
        intro entry mem
        have new : entry.1 ≠ id := fun same => ids.1 (List.mem_map.2 ⟨entry, mem, same⟩)
        rw [nameOf?_withName, if_neg new]
        exact unbound entry (List.mem_cons_of_mem _ mem)
      obtain ⟨entry, mem, blamed⟩ := ih still ids.2 h
      exact ⟨entry, List.mem_cons_of_mem _ mem, blamed⟩

/-- If moreover the names may be declared and are different, then one of them was in use before. -/
theorem bindAll_error_used {f : Failure} (unbound : ∀ entry ∈ entries, b.nameOf? entry.1 = none)
    (ids : (entries.map (·.1)).Nodup) (names : (entries.map (·.2)).Nodup)
    (declarable : ∀ entry ∈ entries, checkIdentifier entry.2 = .ok ()) (h : b.bindAll entries = .error f) :
    ∃ entry ∈ entries, entry.2 ∈ b.used ∧ f = .ofCause (.nameInUse entry.2) := by
  induction entries generalizing b with
  | nil => cases h
  | cons entry rest ih =>
    obtain ⟨id, name⟩ := entry
    rw [List.map_cons, List.nodup_cons] at ids names
    rw [List.forall_mem_cons] at unbound declarable
    rw [bindAll_cons, bind_eq, declarable.1, unbound.1] at h
    by_cases used : name ∈ b.used
    · simp only [isUsed, List.contains_iff_mem.2 used, if_true] at h
      cases h
      exact ⟨_, List.mem_cons_self, used, rfl⟩
    · have new : b.isUsed name = false := by simpa [isUsed] using used
      simp only [new, Bool.false_eq_true, if_false] at h
      have still : ∀ entry ∈ rest, (b.withName id name).nameOf? entry.1 = none := by
        intro entry mem
        have other : entry.1 ≠ id := fun same => ids.1 (List.mem_map.2 ⟨entry, mem, same⟩)
        rw [nameOf?_withName, if_neg other]
        exact unbound.2 entry mem
      obtain ⟨entry, mem, taken, rfl⟩ := ih still ids.2 names.2 declarable.2 h
      rcases List.mem_cons.1 taken with same | taken
      · exact absurd (List.mem_map.2 ⟨entry, mem, same⟩) names.1
      · exact ⟨entry, List.mem_cons_of_mem _ mem, taken, rfl⟩

/-! ### Sound binders -/

/-- What holds of every binder that grew from the reserved names: the reserved names and the bound ones
are in use, no node has two names, no name is shared, and every bound name may be declared. -/
structure Sound (b : Binder) : Prop where
  reserved_used : ∀ name ∈ reservedNames, name ∈ b.used
  bound_used : ∀ entry ∈ b.bound, entry.2 ∈ b.used
  ids_nodup : (b.bound.map (·.1)).Nodup
  names_nodup : (b.bound.map (·.2)).Nodup
  declarable : ∀ entry ∈ b.bound, checkIdentifier entry.2 = .ok ()
  unreserved : ∀ entry ∈ b.bound, entry.2 ∉ reservedNames

theorem sound_withReserved : withReserved.Sound where
  reserved_used _ h := h
  bound_used _ h := absurd h List.not_mem_nil
  ids_nodup := List.nodup_nil
  names_nodup := List.nodup_nil
  declarable _ h := absurd h List.not_mem_nil
  unreserved _ h := absurd h List.not_mem_nil

theorem Sound.withName (sound : b.Sound) (declarable : checkIdentifier name = .ok ())
    (unbound : b.nameOf? id = none) (unused : name ∉ b.used) : (b.withName id name).Sound where
  reserved_used other h := List.mem_cons_of_mem _ (sound.reserved_used other h)
  bound_used := List.forall_mem_cons.2
    ⟨List.mem_cons_self, fun entry h => List.mem_cons_of_mem _ (sound.bound_used entry h)⟩
  ids_nodup := List.nodup_cons.2 ⟨nameOf?_eq_none_iff.1 unbound, sound.ids_nodup⟩
  names_nodup := by
    refine List.nodup_cons.2 ⟨fun mem => ?_, sound.names_nodup⟩
    obtain ⟨entry, mem, same : entry.2 = name⟩ := List.mem_map.1 mem
    exact unused (same ▸ sound.bound_used entry mem)
  declarable := List.forall_mem_cons.2 ⟨declarable, sound.declarable⟩
  unreserved := List.forall_mem_cons.2
    ⟨fun h => unused (sound.reserved_used _ h), sound.unreserved⟩

theorem Sound.bind (sound : b.Sound) (h : b.bind id name = .ok b') : b'.Sound := by
  obtain ⟨declarable, unbound, unused, rfl⟩ := bind_eq_ok_iff.1 h
  exact sound.withName declarable unbound unused

theorem Sound.bindAll (sound : b.Sound) (h : b.bindAll entries = .ok b') : b'.Sound := by
  induction entries generalizing b with
  | nil =>
    cases h
    exact sound
  | cons entry rest ih =>
    rw [bindAll_cons] at h
    cases first : b.bind entry.1 entry.2 with
    | error f =>
      rw [first] at h
      cases h
    | ok b₁ =>
      rw [first] at h
      exact ih (sound.bind first) h

theorem Sound.uniqueName (sound : b.Sound) (base : String) : (b.uniqueName base).2.Sound where
  reserved_used := by simpa using sound.reserved_used
  bound_used := by simpa using sound.bound_used
  ids_nodup := by simpa using sound.ids_nodup
  names_nodup := by simpa using sound.names_nodup
  declarable := by simpa using sound.declarable
  unreserved := by simpa using sound.unreserved

theorem Sound.nameOf?_eq_some_iff (sound : b.Sound) : b.nameOf? id = some name ↔ (id, name) ∈ b.bound :=
  ⟨mem_of_lookup, lookup_of_mem sound.ids_nodup⟩

/-- No two nodes have the same name. -/
theorem Sound.id_eq (sound : b.Sound) {other : Nat} (h : b.nameOf? id = some name)
    (h' : b.nameOf? other = some name) : id = other := by
  have same := List.inj_on_of_nodup_map sound.names_nodup (mem_of_lookup h) (mem_of_lookup h') rfl
  exact congrArg Prod.fst same

/-- Different nodes have different names. -/
theorem Sound.nodup_names {α β : Type} {key : α → Nat} {text : β → String} {xs : List α} {ys : List β}
    (sound : b.Sound) (h : List.Forall₂ (fun x y => b.nameOf? (key x) = some (text y)) xs ys)
    (distinct : (xs.map key).Nodup) : (ys.map text).Nodup := by
  have same := map_eq_of_forall₂ (f := fun x => b.nameOf? (key x)) (g := fun y => some (text y)) h
    fun _ _ named => named
  have looked : (xs.map fun x => b.nameOf? (key x)).Nodup := by
    refine (List.Nodup.of_map _ distinct).map_on ?_
    intro x hx y hy agree
    obtain ⟨d, -, named⟩ := exists_of_forall₂_left h hx
    rw [named] at agree
    exact List.inj_on_of_nodup_map distinct hx hy (sound.id_eq named agree.symm)
  rw [same] at looked
  exact List.Nodup.of_map some (by rwa [List.map_map])

/-- The binders that the operations make of the reserved names. -/
inductive Grown : Binder → Prop where
  | start : Grown withReserved
  | reserve {b b' : Binder} {name : String} : Grown b → b.reserve name = .ok b' → Grown b'
  | bind {b b' : Binder} {id : Nat} {name : String} : Grown b → b.bind id name = .ok b' → Grown b'
  | uniqueName {b : Binder} (base : String) : Grown b → Grown (b.uniqueName base).2

theorem Sound.reserve (sound : b.Sound) (h : b.reserve name = .ok b') : b'.Sound := by
  obtain ⟨-, -, free⟩ := except_bind_eq_ok_iff.1 h
  split at free
  · cases free
  · cases free
    exact { sound with
      reserved_used := fun other h => List.mem_cons_of_mem _ (sound.reserved_used other h)
      bound_used := fun entry h => List.mem_cons_of_mem _ (sound.bound_used entry h) }

theorem Grown.sound (grown : b.Grown) : b.Sound := by
  induction grown with
  | start => exact sound_withReserved
  | reserve _ h ih => exact ih.reserve h
  | bind _ h ih => exact ih.bind h
  | uniqueName base _ ih => exact ih.uniqueName base

/-- The name of a node is an identifier. -/
theorem Sound.isIdentifier (sound : b.Sound) (h : b.nameOf? id = some name) : isIdentifier name = true := by
  have declarable := sound.declarable (id, name) (mem_of_lookup h)
  unfold checkIdentifier at declarable
  split at declarable
  · cases declarable
  · next shape => simpa using shape

end Binder

end ShaderDag
