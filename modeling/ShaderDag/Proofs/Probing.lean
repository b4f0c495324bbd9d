import Mathlib.Data.Nat.Init
import ShaderDag.Proofs.Naming

/-!
# Remembered suffixes

A free name is found by trying suffixes one after the other.  A binder remembers where the last search for
a base ended, and the next one starts there.

* `Binder.Probes` — a search that starts at some suffix and ends;
* `Binder.probes_iff` — it ends at the least free suffix from there on, so there is only one end;
* `Binder.probes_freeSuffix` — every search ends;
* `Binder.Remembers` — every suffix below the remembered one is taken;
* `Binder.uniqueName_least` — the remembered suffix never changes the name that is found.
-/

namespace ShaderDag

namespace Binder

variable {b b' start : Binder} {forks : List Binder} {base : String} {m n k : Nat}

/-! ### Searches -/

/-- `b.Probes base n k`: suffixes of a base are tried from `n` on, one after the other, until the suffix
`k` makes a free name. -/
inductive Probes (b : Binder) (base : String) : Nat → Nat → Prop where
  | free {n : Nat} (unused : b.isUsed (suffixed base n) = false) : Probes b base n n
  | taken {n k : Nat} (used : b.isUsed (suffixed base n) = true) (rest : Probes b base (n + 1) k) :
      Probes b base n k

/-- Every suffix from `m` to `n`, without `n` itself, makes a name that is in use. -/
def TakenBetween (b : Binder) (base : String) (m n : Nat) : Prop :=
  ∀ j, m ≤ j → j < n → b.isUsed (suffixed base j) = true

theorem probes_of_taken (taken : b.TakenBetween base n k) (le : n ≤ k)
    (unused : b.isUsed (suffixed base k) = false) : b.Probes base n k := by
  induction le using Nat.decreasingInduction with
  | self => exact .free unused
  | of_succ n lt ih =>
    exact .taken (taken n (Nat.le_refl n) lt) (ih fun j low high => taken j (Nat.le_of_succ_le low) high)

/-- A search ends at the least free suffix from its start on. -/
theorem probes_iff : b.Probes base n k ↔
    n ≤ k ∧ b.isUsed (suffixed base k) = false ∧ b.TakenBetween base n k := by
  constructor
  · intro h
    induction h with
    | free unused => exact ⟨Nat.le_refl _, unused, fun j low high => absurd high (Nat.not_lt.2 low)⟩
    | @taken n k used _ ih =>
      refine ⟨Nat.le_of_succ_le ih.1, ih.2.1, fun j low high => ?_⟩
      rcases Nat.eq_or_lt_of_le low with rfl | low
      · exact used
      · exact ih.2.2 j low high
  · rintro ⟨le, unused, taken⟩
    exact probes_of_taken taken le unused

/-- Suffixes that are taken may be passed over, and the search ends at the same one. -/
theorem Probes.from_below (taken : b.TakenBetween base m n) (le : m ≤ n) (h : b.Probes base n k) :
    b.Probes base m k := by
  obtain ⟨low, unused, above⟩ := probes_iff.1 h
  refine probes_iff.2 ⟨Nat.le_trans le low, unused, fun j hm hk => ?_⟩
  rcases Nat.lt_or_ge j n with hn | hn
  · exact taken j hm hn
  · exact above j hn hk

theorem Probes.unique {k' : Nat} (h : b.Probes base n k) (h' : b.Probes base n k') : k = k' := by
  induction h with
  | free unused =>
    cases h' with
    | free _ => rfl
    | taken used _ => exact absurd used (by simp [unused])
  | taken used _ ih =>
    cases h' with
    | free unused => exact absurd used (by simp [unused])
    | taken _ rest => exact ih rest

/-- **Every search ends**, at the suffix that the binder computes. -/
theorem probes_freeSuffix (b : Binder) (base : String) (n : Nat) :
    b.Probes base n (b.freeSuffix base n) := by
  have free := b.suffixed_freeSuffix_unused base n
  rw [← isUsed_iff, Bool.not_eq_true] at free
  have searched : n ≤ b.freeSuffix base n ∧ b.TakenBetween base n (b.freeSuffix base n) := by
    rw [freeSuffix]
    cases found : (List.range' n (b.used.length + 1)).find? fun n => !b.isUsed (suffixed base n) with
    | some k =>
      obtain ⟨-, mem, before⟩ := List.find?_range'_eq_some.1 found
      refine ⟨(List.mem_range'_1.1 mem).1, fun j low high => ?_⟩
      simpa using before j low high
    | none =>
      refine ⟨Nat.le_add_right n _, fun j low high => ?_⟩
      have mem : j ∈ List.range' n (b.used.length + 1) :=
        List.mem_range'_1.2 ⟨low, Nat.lt_succ_of_lt high⟩
      simpa using List.find?_eq_none.1 found j mem
  exact probes_iff.2 ⟨searched.1, free, searched.2⟩

/-! ### The remembered suffix -/

/-- Every suffix below the remembered one is taken. -/
def Remembers (b : Binder) : Prop := ∀ base, b.TakenBetween base 0 (b.firstSuffix base)

theorem remembers_of_forgetful (forgetful : b.nextSuffix = []) : b.Remembers := by
  intro base j _ high
  rw [firstSuffix, forgetful] at high
  exact absurd high (Nat.not_lt_zero j)

/-- A search from the remembered suffix ends where one from zero does. -/
theorem Remembers.probes (remembers : b.Remembers) (base : String) :
    b.Probes base 0 (b.freeSuffix base (b.firstSuffix base)) :=
  (b.probes_freeSuffix base (b.firstSuffix base)).from_below (remembers base) (Nat.zero_le _)

/-- Names stay in use, and a search ends behind taken suffixes only. -/
theorem Remembers.effect (remembers : b.Remembers) (effect : b.Effect b') : b'.Remembers := by
  have grown : ∀ base n, b.TakenBetween base 0 n → b'.TakenBetween base 0 n :=
    fun base n taken j low high => effect.keeps.used _ (taken j low high)
  have same : ∀ base,
      b'.firstSuffix base = b.firstSuffix base → b'.TakenBetween base 0 (b'.firstSuffix base) :=
    fun base same => by
      rw [same]
      exact grown base _ (remembers base)
  intro base
  cases effect with
  | refused => exact remembers base
  | reserved _ _ => exact same base rfl
  | bound _ _ _ => exact same base rfl
  | named asked =>
    by_cases used : b.isUsed asked = true
    · have hint : (b.uniqueName asked).2.firstSuffix base =
          if base = asked then b.freeSuffix asked (b.firstSuffix asked) else b.firstSuffix base := by
        rw [uniqueName, if_pos used, firstSuffix, List.lookup_cons]
        by_cases here : base = asked
        · simp [here]
        · rw [if_neg here, beq_false_of_ne here]
          rfl
      by_cases here : base = asked
      · subst here
        rw [hint, if_pos rfl]
        exact grown base _ (probes_iff.1 (remembers.probes base)).2.2
      · exact same base (by rw [hint, if_neg here])
    · exact same base (by rw [uniqueName, if_neg used])

/-- The binder that remembers no suffix. -/
def forgetful (b : Binder) : Binder := { b with nextSuffix := [] }

/-- **The remembered suffix never changes the answer.**  Start from a binder that is empty or has the
reserved names, and call and copy in any order, whether the calls are refused or not.  Every binder that
results makes the base itself if it is free, and otherwise the base with the least suffix that is free,
which is where the search from the remembered suffix ends and where one from zero would end; the names in
use and those of nodes stay as they are. -/
theorem uniqueName_least (fresh : start = empty ∨ start = withReserved) (run : ForksTo [start] forks)
    (mem : b ∈ forks) (base : String) :
    ∃ name b', Naming.uniqueName base b = .ok name b' ∧ b'.used = b.used ∧ b'.bound = b.bound ∧
      (b.isUsed base = false → name = base) ∧
      (b.isUsed base = true → ∃ k, name = suffixed base k ∧ b.isUsed (suffixed base k) = false ∧
        (∀ j < k, b.isUsed (suffixed base j) = true) ∧
        b.Probes base (b.firstSuffix base) k ∧ b.Probes base 0 k) ∧
      name = (b.forgetful.uniqueName base).1 := by
  have unhinted : start.nextSuffix = [] := by
    rcases fresh with rfl | rfl
    · rfl
    · rfl
  have remembers : b.Remembers := invariant_forks (fun _ _ effect h => Remembers.effect h effect) run
    (remembers_of_forgetful unhinted) b mem
  refine ⟨(b.uniqueName base).1, (b.uniqueName base).2, rfl, b.uniqueName_used base,
    b.uniqueName_bound base, fun free => ?_, fun used => ?_, ?_⟩
  · rw [uniqueName, free]
    rfl
  · have whole := remembers.probes base
    obtain ⟨-, unused, taken⟩ := probes_iff.1 whole
    refine ⟨b.freeSuffix base (b.firstSuffix base), ?_, unused, fun j high => ?_,
      b.probes_freeSuffix base _, whole⟩
    · rw [uniqueName, if_pos used]
    · exact taken j (Nat.zero_le j) high
  · have same : b.forgetful.isUsed base = b.isUsed base := rfl
    rw [uniqueName, uniqueName, same]
    by_cases used : b.isUsed base = true
    · have zero : b.forgetful.freeSuffix base (b.forgetful.firstSuffix base) = b.freeSuffix base 0 := rfl
      rw [if_pos used, if_pos used, zero, (remembers.probes base).unique (b.probes_freeSuffix base 0)]
    · rw [if_neg used, if_neg used]

/-- A base and two of its suffixes, taken out of order, with one search in between. -/
def gapped : Binder := ⟨["vec4_2", "vec4_0", "vec4"], [], [("vec4", 0)]⟩

theorem forksTo_gapped : ForksTo [empty] [gapped] := by
  have first : ForkStep [empty] [empty.withUsed "vec4"] :=
    .call (i := 0) rfl (.of_reserve (reserve_eq_ok_iff.2 ⟨by decide, by decide, rfl⟩))
  have search : ForkStep [empty.withUsed "vec4"] [⟨["vec4"], [], [("vec4", 0)]⟩] :=
    .call (i := 0) rfl (.uniqueName "vec4")
  have second : ForkStep [⟨["vec4"], [], [("vec4", 0)]⟩] [⟨["vec4_0", "vec4"], [], [("vec4", 0)]⟩] :=
    .call (i := 0) rfl (.of_reserve (reserve_eq_ok_iff.2 ⟨by decide, by decide, rfl⟩))
  have third : ForkStep [⟨["vec4_0", "vec4"], [], [("vec4", 0)]⟩] [gapped] :=
    .call (i := 0) rfl (.of_reserve (reserve_eq_ok_iff.2 ⟨by decide, by decide, rfl⟩))
  exact (((Relation.ReflTransGen.single first).tail search).tail second).tail third

/-- The search goes on at the remembered suffix 0, which is taken by now, and ends in the gap. -/
theorem gapped_uniqueName :
    ForksTo [empty] [gapped] ∧ gapped.isUsed "vec4" = true ∧
      ∃ k b', Naming.uniqueName "vec4" gapped = .ok (suffixed "vec4" k) b' ∧
        gapped.isUsed (suffixed "vec4" k) = false ∧ (∀ j < k, gapped.isUsed (suffixed "vec4" j) = true) ∧
        gapped.Probes "vec4" 0 k := by
  obtain ⟨name, b', run, -, -, -, numbered, -⟩ :=
    uniqueName_least (.inl rfl) forksTo_gapped List.mem_cons_self "vec4"
  have used : gapped.isUsed "vec4" = true := by decide
  obtain ⟨k, rfl, unused, taken, -, whole⟩ := numbered used
  exact ⟨forksTo_gapped, used, k, b', run, unused, taken, whole⟩

end Binder

end ShaderDag
