import Mathlib.Algebra.BigOperators.Fin
import Mathlib.Algebra.Module.BigOperators
import Mathlib.Algebra.Module.LinearMap.Basic
import Mathlib.Tactic.Abel

/-!
# Triangular systems and decaying sums

`solve` is forward substitution in a lower triangular system with ones on the diagonal, and what solves the
system is unique (`solve_unique`), so solving commutes with linear maps. A sequence that decays by a factor and
gains a term at each step is a sum of decayed terms (`decayed_eq`).
-/

namespace Lib
variable {R M N : Type} [CommRing R] [AddCommGroup M] [Module R M] [AddCommGroup N] [Module R N]

/-- The rows of the solution in turn. Only the part of the matrix below the diagonal is read. -/
def solve (a : ℕ → ℕ → R) (b : ℕ → M) : ℕ → M
  | i => b i - ∑ j : Fin i, a i j • solve a b j
termination_by i => i
decreasing_by exact j.isLt

variable {a : ℕ → ℕ → R} {b : ℕ → M}

lemma solve_eq (a : ℕ → ℕ → R) (b : ℕ → M) (i : ℕ) :
    solve a b i = b i - ∑ j ∈ Finset.range i, a i j • solve a b j := by
  rw [solve, Finset.sum_range]

theorem solve_unique {x : ℕ → M} (h : ∀ i, x i = b i - ∑ j ∈ Finset.range i, a i j • x j) (i : ℕ) :
    x i = solve a b i := by
  induction i using Nat.strongRecOn with
  | ind i ih =>
    rw [h, solve_eq]
    congr 1
    exact Finset.sum_congr rfl fun j hj => by rw [ih j (Finset.mem_range.mp hj)]

lemma solve_map (f : M →ₗ[R] N) (i : ℕ) : f (solve a b i) = solve a (fun i => f (b i)) i := by
  refine solve_unique (x := fun i => f (solve a b i)) (fun i => ?_) i
  rw [solve_eq, map_sub, map_sum]
  simp only [map_smul]

lemma solve_sub (b c : ℕ → M) (i : ℕ) : solve a b i - solve a c i = solve a (fun i => b i - c i) i := by
  refine solve_unique (x := fun i => solve a b i - solve a c i) (fun i => ?_) i
  rw [solve_eq, solve_eq a c]
  simp only [smul_sub, Finset.sum_sub_distrib]
  abel

section Decay
variable {exp : R → R} (h0 : exp 0 = 1) (hadd : ∀ x y, exp (x + y) = exp x * exp y)
include h0 hadd

/-- A decaying sequence, from its start. -/
theorem decayed_eq {s x : ℕ → M} {g : ℕ → R} (h : ∀ t, s (t + 1) = exp (g t) • s t + x t) (n : ℕ) :
    s n = exp (∑ i ∈ Finset.range n, g i) • s 0 +
      ∑ t ∈ Finset.range n, exp (∑ i ∈ Finset.range n, g i - ∑ i ∈ Finset.range (t + 1), g i) • x t := by
  induction n with
  | zero => rw [Finset.sum_range_zero, h0, one_smul, Finset.sum_range_zero, add_zero]
  | succ n ih =>
    have hfirst : exp (∑ i ∈ Finset.range (n + 1), g i) = exp (g n) * exp (∑ i ∈ Finset.range n, g i) := by
      rw [Finset.sum_range_succ, add_comm, hadd]
    have hterm : ∀ t, exp (∑ i ∈ Finset.range (n + 1), g i - ∑ i ∈ Finset.range (t + 1), g i) =
        exp (g n) * exp (∑ i ∈ Finset.range n, g i - ∑ i ∈ Finset.range (t + 1), g i) := fun t => by
      rw [← hadd, Finset.sum_range_succ g n]
      congr 1
      abel
    rw [Finset.sum_range_succ (fun t => exp (_ - ∑ i ∈ Finset.range (t + 1), g i) • x t) n, sub_self, h0, one_smul,
      ← add_assoc, h]
    congr 1
    rw [hfirst, ih, smul_add, smul_smul, Finset.smul_sum]
    congr 1
    exact Finset.sum_congr rfl fun t _ => by rw [hterm, smul_smul]

end Decay

end Lib
