import Mathlib.Data.List.Basic
import Mathlib.Data.List.Forall2
import Mathlib.Data.List.Induction
import Mathlib.Data.List.Nodup

/-!
# Lists of results and tables

Facts about lists that the pools, binders and tallies share.

* `map_eq_map_of_imp`, `mapM_eq_some_iff_map`, `mapM_eq_ok_of_forall₂` — lists of results that agree
  place by place;
* `removeAll_append`, `eraseDups_removeAll_around`, `nodup_eraseDups` — lists less some members, and less
  repetitions;
* `appendNew` — a list, then what is new in another;
* `exists_lookup`, `mem_of_lookup`, `lookup_of_mem` — tables as lists of keys with values;
* `mem_filterMap_tagged`, `keys_filterMap_tagged` — the keys that have a value, with their values.
-/

namespace ShaderDag

variable {α β γ δ : Type}

/-! ### Results place by place -/

theorem map_eq_map_of_imp {f : α → γ} {g : β → γ} {f' : α → δ} {g' : β → δ} {xs : List α}
    {ys : List β} (h : ∀ a ∈ xs, ∀ b ∈ ys, f a = g b → f' a = g' b)
    (same : xs.map f = ys.map g) : xs.map f' = ys.map g' := by
  induction xs generalizing ys with
  | nil =>
    cases ys with
    | nil => rfl
    | cons y ys => simp at same
  | cons x xs ih =>
    cases ys with
    | nil => simp at same
    | cons y ys =>
      simp only [List.map_cons, List.cons.injEq] at same ⊢
      exact ⟨h x List.mem_cons_self y List.mem_cons_self same.1,
        ih (fun a ha b hb => h a (List.mem_cons_of_mem x ha) b (List.mem_cons_of_mem y hb)) same.2⟩

theorem mapM_eq_some_iff_map {f : α → Option β} {xs : List α} {ys : List β} :
    xs.mapM f = some ys ↔ xs.map f = ys.map some := by
  induction xs generalizing ys with
  | nil => cases ys <;> simp
  | cons x xs ih =>
    rw [List.mapM_cons]
    cases ys with
    | nil => simp [Option.bind_eq_some_iff]
    | cons y ys => simp [Option.bind_eq_some_iff, ih]

theorem exists_map_eq_map_some {f : α → Option β} {xs : List α}
    (h : ∀ a ∈ xs, ∃ b, f a = some b) : ∃ ys : List β, xs.map f = ys.map some := by
  induction xs with
  | nil => exact ⟨[], rfl⟩
  | cons x xs ih =>
    obtain ⟨y, hy⟩ := h x List.mem_cons_self
    obtain ⟨ys, hys⟩ := ih fun a ha => h a (List.mem_cons_of_mem x ha)
    exact ⟨y :: ys, by simp [hy, hys]⟩

theorem exists_zip_of_map_eq {f : α → γ} {g : β → γ} {xs : List α} {ys : List β}
    (same : xs.map f = ys.map g) :
    ∃ zs : List (α × β), xs = zs.map (·.1) ∧ ys = zs.map (·.2) ∧ ∀ z ∈ zs, f z.1 = g z.2 := by
  induction xs generalizing ys with
  | nil =>
    cases ys with
    | nil => exact ⟨[], rfl, rfl, by simp⟩
    | cons y ys => simp at same
  | cons x xs ih =>
    cases ys with
    | nil => simp at same
    | cons y ys =>
      simp only [List.map_cons, List.cons.injEq] at same
      obtain ⟨zs, rfl, rfl, all⟩ := ih same.2
      exact ⟨(x, y) :: zs, rfl, rfl, List.forall_mem_cons.2 ⟨same.1, all⟩⟩

theorem ok_bind {ε : Type} (a : α) (f : α → Except ε β) : (Except.ok a >>= f) = f a := rfl

theorem except_bind_eq_ok_iff {ε : Type} {x : Except ε α} {f : α → Except ε β} {b : β} :
    (x >>= f) = .ok b ↔ ∃ a, x = .ok a ∧ f a = .ok b := by
  cases x with
  | error e => exact ⟨nofun, nofun⟩
  | ok a => exact ⟨fun h => ⟨a, rfl, h⟩, fun ⟨_, same, h⟩ => by cases same; exact h⟩

section Actions

variable {ε σ : Type} {action : EStateM ε σ α} {next : α → EStateM ε σ β} {s s' : σ}

theorem get_ok : (get : EStateM ε σ σ) s = .ok s s := rfl

theorem modifyGet_ok (change : σ → α × σ) (s : σ) :
    (modifyGet change : EStateM ε σ α) s = .ok (change s).1 (change s).2 := rfl

theorem bind_ok {a : α} (run : action s = .ok a s') : (action >>= next) s = next a s' := by
  show EStateM.bind action next s = _
  rw [EStateM.bind, run]

theorem bind_error {e : ε} (run : action s = .error e s') : (action >>= next) s = .error e s' := by
  show EStateM.bind action next s = _
  rw [EStateM.bind, run]

theorem bind_eq_ok {b : β} (run : (action >>= next) s = .ok b s') :
    ∃ a s₁, action s = .ok a s₁ ∧ next a s₁ = .ok b s' := by
  cases first : action s with
  | ok a s₁ =>
    rw [bind_ok first] at run
    exact ⟨a, s₁, rfl, run⟩
  | error e s₁ =>
    rw [bind_error first] at run
    cases run

end Actions

theorem mapM_eq_ok_of_forall₂ {ε : Type} {f : α → Except ε β} {xs : List α} {ys : List β}
    (h : List.Forall₂ (fun a b => f a = .ok b) xs ys) : xs.mapM f = .ok ys := by
  induction h with
  | nil => rfl
  | cons first _ ih =>
    rw [List.mapM_cons, first, ih]
    rfl

theorem mapM_map_ok {ε : Type} {f : α → Except ε β} {g : γ → α} {k : γ → β} {xs : List γ}
    (h : ∀ x ∈ xs, f (g x) = .ok (k x)) : (xs.map g).mapM f = .ok (xs.map k) := by
  refine mapM_eq_ok_of_forall₂ ?_
  rw [List.forall₂_map_left_iff, List.forall₂_map_right_iff]
  exact List.forall₂_same.2 h

theorem map_eq_of_forall₂ {R : α → β → Prop} {f : α → γ} {g : β → γ} {xs : List α} {ys : List β}
    (h : List.Forall₂ R xs ys) (same : ∀ a b, R a b → f a = g b) : xs.map f = ys.map g := by
  induction h with
  | nil => rfl
  | cons first _ ih => rw [List.map_cons, List.map_cons, ih, same _ _ first]

theorem exists_of_forall₂_left {R : α → β → Prop} {xs : List α} {ys : List β} {a : α}
    (h : List.Forall₂ R xs ys) (mem : a ∈ xs) : ∃ b ∈ ys, R a b := by
  induction h with
  | nil => simp at mem
  | @cons x y xs ys first _ ih =>
    rcases List.mem_cons.1 mem with rfl | mem
    · exact ⟨y, List.mem_cons_self, first⟩
    · obtain ⟨b, hb, hab⟩ := ih mem
      exact ⟨b, List.mem_cons_of_mem _ hb, hab⟩

theorem exists_of_forall₂_right {R : α → β → Prop} {xs : List α} {ys : List β} {b : β}
    (h : List.Forall₂ R xs ys) (mem : b ∈ ys) : ∃ a ∈ xs, R a b := by
  obtain ⟨a, ha, hab⟩ := exists_of_forall₂_left (List.Forall₂.flip h) mem
  exact ⟨a, ha, hab⟩

theorem rel_find? {R : α → β → Prop} {f : α → Bool} {g : β → Bool} {xs : List α} {ys : List β}
    (h : List.Forall₂ R xs ys) (same : ∀ a b, R a b → f a = g b) :
    Option.Rel R (xs.find? f) (ys.find? g) := by
  induction h with
  | nil => exact .none
  | @cons x y xs ys first _ ih =>
    rw [List.find?_cons, List.find?_cons, ← same x y first]
    cases f x with
    | true => exact .some first
    | false => exact ih

theorem eq_none_of_rel {R : α → β → Prop} {o : Option β} (h : Option.Rel R none o) : o = none := by
  cases h
  rfl

theorem exists_of_rel {R : α → β → Prop} {a : α} {o : Option β} (h : Option.Rel R (some a) o) :
    ∃ b, o = some b ∧ R a b := by
  cases h with
  | some hab => exact ⟨_, rfl, hab⟩

theorem forall₂_of_forall₂ {R : α → β → Prop} {S : α → γ → Prop} {T : β → γ → Prop} {xs : List α}
    {ys : List β} {zs : List γ} (h : List.Forall₂ R xs ys) (h' : List.Forall₂ S xs zs)
    (joins : ∀ a b c, R a b → S a c → T b c) : List.Forall₂ T ys zs := by
  induction h generalizing zs with
  | nil =>
    cases h'
    exact .nil
  | cons first _ ih =>
    cases h' with
    | cons first' rest' => exact .cons (joins _ _ _ first first') (ih rest')

theorem forall₂_zipIdx {R : α → β → Prop} {xs : List α} {ys : List β} (n : Nat)
    (h : List.Forall₂ R xs ys) :
    List.Forall₂ (fun x y => R x.1 y.1 ∧ x.2 = y.2) (xs.zipIdx n) (ys.zipIdx n) := by
  induction h generalizing n with
  | nil => exact .nil
  | cons first _ ih => exact .cons ⟨first, rfl⟩ (ih (n + 1))

theorem exists_forall₂ {R : α → β → Prop} {xs : List α} (h : ∀ a ∈ xs, ∃ b, R a b) :
    ∃ ys, List.Forall₂ R xs ys := by
  induction xs with
  | nil => exact ⟨[], .nil⟩
  | cons x xs ih =>
    obtain ⟨y, hy⟩ := h x List.mem_cons_self
    obtain ⟨ys, hys⟩ := ih fun a ha => h a (List.mem_cons_of_mem x ha)
    exact ⟨y :: ys, .cons hy hys⟩

/-! ### Lists without repetition -/

section RemoveAll

variable {xs ys zs : List α}

theorem removeAll_append [BEq α] : (xs ++ ys).removeAll zs = xs.removeAll zs ++ ys.removeAll zs :=
  List.filter_append ..

variable [BEq α] [LawfulBEq α]

theorem removeAll_removeAll : (xs.removeAll ys).removeAll zs = xs.removeAll (ys ++ zs) := by
  rw [List.removeAll, List.removeAll, List.removeAll, List.filter_filter]
  refine List.filter_congr fun c _ => ?_
  simp [Bool.and_comm]

theorem removeAll_congr (same : ∀ c ∈ xs, c ∈ ys ↔ c ∈ zs) : xs.removeAll ys = xs.removeAll zs := by
  refine List.filter_congr fun c hc => ?_
  simp [same c hc]

theorem removeAll_eq_self (apart : ∀ c ∈ xs, c ∉ ys) : xs.removeAll ys = xs := by
  refine List.filter_eq_self.2 fun c hc => ?_
  simp [apart c hc]

theorem removeAll_eq_nil (sub : ∀ c ∈ xs, c ∈ ys) : xs.removeAll ys = [] := by
  refine List.filter_eq_nil_iff.2 fun c hc => ?_
  simp [sub c hc]

theorem nodup_eraseDups (xs : List α) : xs.eraseDups.Nodup := by
  induction xs using List.reverseRecOn with
  | nil => exact .nil
  | append_singleton xs x ih =>
    rw [List.eraseDups_append]
    by_cases old : x ∈ xs
    · rw [removeAll_eq_nil (by simpa using old)]
      simpa using ih
    · rw [removeAll_eq_self (by simpa using old)]
      refine List.nodup_append.2 ⟨ih, List.nodup_singleton x, ?_⟩
      rintro a ha b hb rfl
      rw [List.mem_eraseDups] at ha
      exact old (List.mem_singleton.1 hb ▸ ha)

/-- First occurrences around a new member: those before it, the member, and those behind it that are
neither known nor among the earlier ones. -/
theorem eraseDups_removeAll_around {x : α} {known known' : List α} (new : x ∉ known) (apart : x ∉ xs)
    (members : ∀ c, c ∈ known' ↔ c ∈ x :: known ∨ c ∈ xs) :
    ((xs ++ [x] ++ ys).removeAll known).eraseDups =
      (xs.removeAll known).eraseDups ++ x :: (ys.removeAll known').eraseDups := by
  have here : [x].removeAll known = [x] := removeAll_eq_self (by simpa using new)
  have alone : [x].removeAll (xs.removeAll known) = [x] := by
    refine removeAll_eq_self fun c hc mem => ?_
    exact apart (List.mem_singleton.1 hc ▸ List.mem_of_mem_filter mem)
  have later : ys.removeAll (known ++ (xs.removeAll known ++ [x])) = ys.removeAll known' := by
    refine removeAll_congr fun c _ => ?_
    rw [members]
    simp only [List.mem_append, List.mem_cons, List.removeAll, List.mem_filter]
    grind
  have single : [x].eraseDups = [x] := by rw [List.eraseDups_cons]; rfl
  rw [removeAll_append, removeAll_append, here, List.eraseDups_append, List.eraseDups_append, alone,
    single, removeAll_removeAll, later, List.append_assoc, List.singleton_append]

end RemoveAll

section AppendNew

variable [BEq α] [LawfulBEq α] {xs ys zs : List α} {a : α}

/-- A list, then the members of another list that are not in it, each at its first place. -/
def appendNew (xs ys : List α) : List α := xs ++ (ys.removeAll xs).eraseDups

theorem mem_appendNew : a ∈ appendNew xs ys ↔ a ∈ xs ∨ a ∈ ys := by
  by_cases old : a ∈ xs <;> simp [appendNew, List.removeAll, old]

theorem appendNew_append : appendNew xs (ys ++ zs) = appendNew (appendNew xs ys) zs := by
  have later : zs.removeAll (xs ++ ys.removeAll xs) = zs.removeAll (appendNew xs ys) := by
    refine removeAll_congr fun c _ => ?_
    rw [mem_appendNew]
    by_cases old : c ∈ xs <;> simp [List.removeAll, old]
  rw [appendNew, removeAll_append, List.eraseDups_append, removeAll_removeAll, later, ← List.append_assoc]
  rfl

theorem appendNew_of_subset (sub : ∀ c ∈ ys, c ∈ xs) : appendNew xs ys = xs := by
  rw [appendNew, removeAll_eq_nil sub]
  simp

theorem appendNew_singleton (new : a ∉ xs) : appendNew xs [a] = xs ++ [a] := by
  rw [appendNew, removeAll_eq_self (by simpa using new), List.eraseDups_cons]
  rfl

/-- Repetitions make no difference to what is appended. -/
theorem appendNew_map_eraseDups [BEq β] [LawfulBEq β] (f : β → α) (bs : List β) :
    appendNew xs (bs.eraseDups.map f) = appendNew xs (bs.map f) := by
  induction bs using List.reverseRecOn with
  | nil => rfl
  | append_singleton bs b ih =>
    rw [List.eraseDups_append, List.map_append, List.map_append, appendNew_append, appendNew_append, ih]
    by_cases old : b ∈ bs
    · have here : f b ∈ appendNew xs (bs.map f) := mem_appendNew.2 (.inr (List.mem_map_of_mem old))
      have nothing : appendNew (appendNew xs (bs.map f)) [] = appendNew xs (bs.map f) :=
        appendNew_of_subset (by simp)
      rw [removeAll_eq_nil (by simpa using old), List.eraseDups_nil, List.map_nil, nothing]
      exact (appendNew_of_subset (by simpa using here)).symm
    · rw [removeAll_eq_self (by simpa using old), List.eraseDups_cons]
      rfl

end AppendNew

/-! ### Tables -/

theorem exists_lookup [BEq α] [LawfulBEq α] {k : α} {l : List (α × β)} (h : k ∈ l.map (·.1)) :
    ∃ v, l.lookup k = some v := by
  obtain ⟨⟨k, v⟩, mem, rfl⟩ := List.mem_map.1 h
  exact Option.isSome_iff_exists.1 (List.lookup_isSome_iff.2 ⟨(k, v), mem, by simp⟩)

theorem mem_of_lookup [BEq α] [LawfulBEq α] {k : α} {v : β} {l : List (α × β)}
    (h : l.lookup k = some v) : (k, v) ∈ l := by
  obtain ⟨before, after, rfl, -⟩ := List.lookup_eq_some_iff.1 h
  simp

theorem lookup_of_mem [BEq α] [LawfulBEq α] {k : α} {v : β} {l : List (α × β)}
    (distinct : (l.map (·.1)).Nodup) (h : (k, v) ∈ l) : l.lookup k = some v := by
  induction l with
  | nil => simp at h
  | cons entry l ih =>
    rw [List.map_cons, List.nodup_cons] at distinct
    rcases List.mem_cons.1 h with rfl | h
    · exact List.lookup_cons_self
    · have other : k ≠ entry.1 := fun same => distinct.1 (same ▸ List.mem_map_of_mem h)
      rw [List.lookup_cons, beq_false_of_ne other]
      exact ih distinct.2 h

theorem mem_filterMap_tagged {f : α → Option β} {ids : List α} {id : α} {x : β} :
    (id, x) ∈ ids.filterMap (fun id => (f id).map (id, ·)) ↔ id ∈ ids ∧ f id = some x := by
  simp only [List.mem_filterMap, Option.map_eq_some_iff, Prod.mk.injEq]
  constructor
  · rintro ⟨a, mem, y, hy, rfl, rfl⟩
    exact ⟨mem, hy⟩
  · rintro ⟨mem, hx⟩
    exact ⟨id, mem, x, hx, rfl, rfl⟩

theorem keys_filterMap_tagged (f : α → Option β) (ids : List α) :
    (ids.filterMap fun id => (f id).map (id, ·)).map (·.1) = ids.filter fun id => (f id).isSome := by
  induction ids with
  | nil => rfl
  | cons id ids ih =>
    cases h : f id with
    | none => simp [h, ih]
    | some x => simp [h, ih]

end ShaderDag
