import Mathlib.Tactic.Ring

/-!
# Fractions with small numerators

Two fractions `a / b < c / d` are neighbours if `b * c = a * d + 1`.  A fraction between neighbours has at
least the numerator of their mediant `(a + c) / (b + d)`, which is a neighbour of both.  So all fractions
with small numerators in a narrow band are found by looking at one mediant after the other.

* `Close` — a fraction is close to a quotient, up to a given part of the fraction;
* `le_numerator` — the numerators of the fractions between neighbours;
* `closeFractions` — the fractions that are close to a quotient and have small numerators;
* `exists_of_close` — every such fraction is found.
-/

namespace ShaderDag

/-- The quotient `p / q` differs from the fraction `x / y` by at most a `parts`-th part of the fraction. -/
structure Close (parts p q x y : Nat) : Prop where
  low : (parts - 1) * (x * q) ≤ parts * (y * p)
  high : parts * (y * p) ≤ (parts + 1) * (x * q)

variable {parts p q bound a b c d x y : Nat}

/-- **A fraction between neighbours has at least the numerator of the mediant.** -/
theorem le_numerator (neighbours : b * c = a * d + 1) (low : a * y < x * b) (high : x * d < c * y) :
    a + c ≤ x := by
  obtain ⟨j, left⟩ := Nat.exists_eq_add_of_lt low
  obtain ⟨k, right⟩ := Nat.exists_eq_add_of_lt high
  -- the numerator is a sum of as many numerators as the two gaps say
  have sum : x + a * d * x = (j + 1) * c + (k + 1) * a + a * d * x := by
    calc x + a * d * x = (a * d + 1) * x := by ring
      _ = (x * b) * c := by rw [← neighbours]; ring
      _ = a * (c * y) + (j + 1) * c := by rw [left]; ring
      _ = (j + 1) * c + (k + 1) * a + a * d * x := by rw [right]; ring
  have first : 1 * c ≤ (j + 1) * c := Nat.mul_le_mul_right c (by omega)
  have second : 1 * a ≤ (k + 1) * a := Nat.mul_le_mul_right a (by omega)
  omega

/-- What lies below the band lies below each close fraction. -/
theorem Close.above (close : Close parts p q x y) (positive : 0 < y)
    (below : (parts + 1) * (a * q) < parts * (b * p)) : a * y < x * b := by
  have scaled : (parts + 1) * q * (a * y) < (parts + 1) * q * (x * b) := by
    calc (parts + 1) * q * (a * y) = (parts + 1) * (a * q) * y := by ring
      _ < parts * (b * p) * y := Nat.mul_lt_mul_of_pos_right below positive
      _ = parts * (y * p) * b := by ring
      _ ≤ (parts + 1) * (x * q) * b := Nat.mul_le_mul_right b close.high
      _ = (parts + 1) * q * (x * b) := by ring
  exact Nat.lt_of_mul_lt_mul_left scaled

/-- What lies above the band lies above each close fraction. -/
theorem Close.below (close : Close parts p q x y) (positive : 0 < y)
    (above : parts * (d * p) < (parts - 1) * (c * q)) : x * d < c * y := by
  have scaled : (parts - 1) * q * (x * d) < (parts - 1) * q * (c * y) := by
    calc (parts - 1) * q * (x * d) = (parts - 1) * (x * q) * d := by ring
      _ ≤ parts * (y * p) * d := Nat.mul_le_mul_right d close.low
      _ = parts * (d * p) * y := by ring
      _ < (parts - 1) * (c * q) * y := Nat.mul_lt_mul_of_pos_right above positive
      _ = (parts - 1) * q * (c * y) := by ring
  exact Nat.lt_of_mul_lt_mul_left scaled

/-- The fractions between the neighbours `a / b` and `c / d` that are close to `p / q` and have a
numerator below `bound`, in lowest terms.  A mediant outside the band leaves one side to look at, and one
inside it leaves both. -/
def closeFractions (parts p q bound : Nat) : (fuel a b c d : Nat) → Option (List (Nat × Nat))
  | 0, _, _, _, _ => none
  | fuel + 1, a, b, c, d =>
    if bound ≤ a + c then some []
    else if (parts + 1) * ((a + c) * q) < parts * ((b + d) * p) then
      closeFractions parts p q bound fuel (a + c) (b + d) c d
    else if parts * ((b + d) * p) < (parts - 1) * ((a + c) * q) then
      closeFractions parts p q bound fuel a b (a + c) (b + d)
    else do
      let below ← closeFractions parts p q bound fuel a b (a + c) (b + d)
      let above ← closeFractions parts p q bound fuel (a + c) (b + d) c d
      return (a + c, b + d) :: (below ++ above)

/-- **Every close fraction with a small numerator is found.**  By induction on the run: the neighbours stay
neighbours, and the fraction stays between them until it is a mediant. -/
theorem exists_of_close {fuel : Nat} {found : List (Nat × Nat)} (neighbours : b * c = a * d + 1)
    (low : a * y < x * b) (high : x * d < c * y) (small : x < bound) (close : Close parts p q x y)
    (run : closeFractions parts p q bound fuel a b c d = some found) :
    ∃ f ∈ found, x * f.2 = f.1 * y := by
  have positive : 0 < y := Nat.pos_of_ne_zero fun zero => by simp [zero] at high
  induction fuel generalizing a b c d found with
  | zero => cases run
  | succ fuel ih =>
    have first : b * (a + c) = a * (b + d) + 1 := by rw [Nat.mul_add, neighbours]; ring
    have second : (b + d) * c = (a + c) * d + 1 := by rw [Nat.add_mul, neighbours]; ring
    rw [closeFractions] at run
    split at run
    · next past => exact absurd (le_numerator neighbours low high) (by omega)
    split at run
    · next below => exact ih second (close.above positive below) high run
    split at run
    · next above => exact ih first low (close.below positive above) run
    · simp only [Option.bind_eq_bind, Option.bind_eq_some_iff, Option.pure_def, Option.some.injEq] at run
      obtain ⟨lefts, left, rights, right, rfl⟩ := run
      rcases Nat.lt_trichotomy (x * (b + d)) ((a + c) * y) with before | same | behind
      · obtain ⟨f, mem, equal⟩ := ih first low before left
        exact ⟨f, List.mem_cons_of_mem _ (List.mem_append_left _ mem), equal⟩
      · exact ⟨_, List.mem_cons_self, same⟩
      · obtain ⟨f, mem, equal⟩ := ih second behind high right
        exact ⟨f, List.mem_cons_of_mem _ (List.mem_append_right _ mem), equal⟩

end ShaderDag
