import Mathlib.Data.Nat.Init
import ShaderDag.Proofs.Inputs

/-!
# Names of varyings never collide

Underscores are put behind the word `varying`, one by one, until nothing starts with the stem.  A longer stem
starts fewer names, so the stems from the first clear one on are all clear; and since every name has an end,
there is a first one.

* `Lengthens` — a search that puts underscores behind a stem and ends at a clear one;
* `StemClear.mono`, `stemClear_zero` — a longer stem stays clear, and the bare word is not clear;
* `lengthens_varyingLead` — the search ends at the stem that is computed;
* `varying_fresh` — a number behind it makes a name that may be declared and that nothing else has;
* `varyings_never_collide` — the stem, the names made from it, and the nodes that get them.
-/

namespace ShaderDag

variable {taken : List String} {m n k : Nat}

/-! ### The search for a stem -/

/-- `Lengthens taken n k`: as long as some name starts with the stem of `n` underscores one more is put
behind it, and the search ends with `k` of them. -/
inductive Lengthens (taken : List String) : Nat → Nat → Prop where
  | clear {n : Nat} (h : StemClear taken n) : Lengthens taken n n
  | collides {n k : Nat} {name : String} (mem : name ∈ reservedNames ++ taken)
      (starts : startsWith (varyingStem n) name = true) (more : Lengthens taken (n + 1) k) :
      Lengthens taken n k

theorem startsWith_shorter {name : String} (le : m ≤ n) (h : startsWith (varyingStem n) name = true) :
    startsWith (varyingStem m) name = true := by
  rw [startsWith, List.isPrefixOf_iff_prefix] at h ⊢
  refine List.IsPrefix.trans ?_ h
  have longer : List.replicate n '_' = List.replicate m '_' ++ List.replicate (n - m) '_' := by
    rw [List.replicate_append_replicate]
    congr 1
    omega
  rw [varyingStem_toList, varyingStem_toList, longer, ← List.append_assoc]
  exact List.prefix_append _ _

/-- A longer stem starts fewer names. -/
theorem StemClear.mono (le : m ≤ n) (h : StemClear taken m) : StemClear taken n := by
  intro name mem
  by_cases starts : startsWith (varyingStem n) name = true
  · have shorter := startsWith_shorter le starts
    rw [h name mem] at shorter
    exact absurd shorter (by decide)
  · simpa using starts

/-- The word `varying` is reserved. -/
theorem stemClear_zero : ¬StemClear taken 0 := by
  intro h
  have mem : "varying" ∈ reservedNames ++ taken :=
    List.mem_append_left _ (List.mem_append_left _ (List.mem_append_left _ (by decide)))
  have clear := h "varying" mem
  exact absurd clear (by decide)

/-- A search passes over the stems that collide. -/
theorem lengthens_of_least (le : n ≤ k) (clear : StemClear taken k)
    (before : ∀ m, n ≤ m → m < k → ¬StemClear taken m) : Lengthens taken n k := by
  induction le using Nat.decreasingInduction with
  | self => exact .clear clear
  | of_succ n lt ih =>
    have collides : ∃ name ∈ reservedNames ++ taken, startsWith (varyingStem n) name = true := by
      by_contra none
      refine before n (Nat.le_refl n) lt fun name mem => ?_
      by_contra starts
      exact none ⟨name, mem, by simpa using starts⟩
    obtain ⟨name, mem, starts⟩ := collides
    exact .collides mem starts (ih fun m low high => before m (by omega) high)

/-- **The search ends**, at the stem that is computed, and exactly the stems from there on are clear. -/
theorem lengthens_varyingLead (taken : List String) :
    ∃ n, varyingLead taken = varyingStem n ∧ 1 ≤ n ∧ Lengthens taken 1 n ∧
      ∀ m, StemClear taken m ↔ n ≤ m := by
  obtain ⟨n, lead, low, clear, before⟩ := exists_varyingStem taken
  refine ⟨n, lead, low, lengthens_of_least low clear before, fun m => ?_⟩
  constructor
  · intro h
    by_contra less
    by_cases bare : m = 0
    · exact stemClear_zero (bare ▸ h)
    · exact before m (by omega) (by omega) h
  · exact fun le => clear.mono le

/-! ### Numbered names -/

/-- A number behind the stem makes a name that may be declared and that no name is equal to. -/
theorem varying_fresh (taken : List String) (number : Nat) :
    checkIdentifier (varyingLead taken ++ toString number) = .ok () ∧
      varyingLead taken ++ toString number ∉ reservedNames ++ taken := by
  obtain ⟨n, lead, clear⟩ := varyingLead_clear taken
  rw [lead]
  refine ⟨checkIdentifier_varying n number, fun mem => ?_⟩
  have starts := clear _ mem
  rw [startsWith_append] at starts
  exact absurd starts (by decide)

theorem Inputs.map_varyingNames (i : Inputs) : i.varyingNames.map (·.2) =
    (List.range i.varyings.length).map (varyingLead (i.callerNames.map (·.2)) ++ toString ·) := by
  rw [List.range_eq_range', ← List.zipIdx_map_snd 0 i.varyings]
  simp only [Inputs.varyingNames, List.map_map, Function.comp_def]

/-- **Names of varyings never collide.**  Whatever names are taken, the search for a stem ends, with at least
one underscore and as few as possible: a stem is clear exactly if it has that many or more.  A number behind
the stem makes a name that may be declared and that is neither reserved nor taken, and other numbers make
other names.  So if a program's callers chose the taken names and these were accepted, then every one of its
varyings gets its name, however many there are; and the inputs of a pool are always such inputs. -/
theorem varyings_never_collide (taken : List String) :
    (∃ n, varyingLead taken = varyingStem n ∧ 1 ≤ n ∧ Lengthens taken 1 n ∧
      ∀ m, StemClear taken m ↔ n ≤ m) ∧
    (∀ number : Nat, checkIdentifier (varyingLead taken ++ toString number) = .ok () ∧
      varyingLead taken ++ toString number ∉ reservedNames ++ taken) ∧
    (∀ number other : Nat, varyingLead taken ++ toString number = varyingLead taken ++ toString other →
      number = other) ∧
    (∀ (i : Inputs) (b : Binder), i.callerNames.map (·.2) = taken → i.NodesApart →
      Binder.withReserved.bindAll i.callerNames = .ok b →
        i.varyingNames.map (·.2) =
          (List.range i.varyings.length).map (varyingLead taken ++ toString ·) ∧
        b.bindAll i.varyingNames = .ok (b.withAll i.varyingNames) ∧
        i.bind = .ok (b.withAll i.varyingNames)) ∧
    ∀ (p : Pool) (roots : List Nat), (p.inputs roots).NodesApart := by
  refine ⟨lengthens_varyingLead taken, varying_fresh taken,
    fun number other => append_toString_injective _, fun i b same apart accepted => ?_, Pool.nodup_input_keys⟩
  subst same
  have run : i.bind = .ok (b.withAll i.varyingNames) := by
    rw [i.bind_eq apart, accepted]
    rfl
  have behind : i.bind = b.bindAll i.varyingNames := by
    show Binder.withReserved.bindAll (i.callerNames ++ i.varyingNames) = _
    rw [Binder.bindAll_append, accepted]
    rfl
  exact ⟨i.map_varyingNames, behind ▸ run, run⟩

/-- Two attributes whose names imitate names of varyings, and two varyings. -/
def imitated : Inputs := ⟨[(0, "varying_0"), (1, "varying__1")], [], [(2, 0), (3, 1)]⟩

/-- The varyings get three underscores. -/
theorem imitated_bound : ∃ b, Binder.withReserved.bindAll imitated.callerNames = .ok b ∧
    imitated.bind = .ok (b.withAll [(2, "varying___0"), (3, "varying___1")]) := by
  have accepted : Binder.withReserved.bindAll imitated.callerNames =
      .ok (Binder.withReserved.withAll imitated.callerNames) := by decide +kernel
  have named : imitated.varyingNames = [(2, "varying___0"), (3, "varying___1")] := by decide +kernel
  have apart : imitated.NodesApart := by
    rw [Inputs.NodesApart, named]
    decide
  obtain ⟨-, -, run⟩ :=
    (varyings_never_collide ["varying_0", "varying__1"]).2.2.2.1 imitated _ rfl apart accepted
  exact ⟨_, accepted, named ▸ run⟩

end ShaderDag
