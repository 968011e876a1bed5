import Mathlib.Algebra.BigOperators.Intervals
import Mathlib.Tactic.Common

/-!
# Scans in rounds

Lanes that add up from below by doubling distances: after the rounds of the distances 1, 2, 4 and so on each lane
holds the sum of the last entries up to its own (`scan_eq`), and with enough rounds of all of them (`scan_full`).
Blocks of equal size share a sum (`sum_blocks`).
-/

open Finset

namespace Lib
variable {M : Type} [AddCommMonoid M]

/-- One round: each lane adds what the lane `d` below holds. -/
def scanRound (d : ℕ) (v : ℕ → M) (lane : ℕ) : M := if d ≤ lane then v lane + v (lane - d) else v lane

/-- The rounds of the first powers of two. -/
def scan (v : ℕ → M) : ℕ → ℕ → M
  | 0 => v
  | rounds + 1 => scanRound (2 ^ rounds) (scan v rounds)

lemma scan_eq (v : ℕ → M) (rounds lane : ℕ) :
    scan v rounds lane = ∑ i ∈ Ico (lane + 1 - 2 ^ rounds) (lane + 1), v i := by
  induction rounds generalizing lane with
  | zero => rw [pow_zero, Nat.add_sub_cancel, Nat.Ico_succ_singleton, sum_singleton, scan]
  | succ rounds ih =>
    have hpow : 2 ^ (rounds + 1) = 2 ^ rounds + 2 ^ rounds := by rw [pow_succ, Nat.mul_two]
    have hpos : 0 < 2 ^ rounds := Nat.two_pow_pos rounds
    rw [scan, scanRound, ih, hpow]
    split_ifs with hle
    · -- the two windows meet
      have hmeet : lane - 2 ^ rounds + 1 = lane + 1 - 2 ^ rounds := by omega
      rw [ih, add_comm, hmeet]
      refine (sum_Ico_consecutive v (by omega) (by omega)).trans ?_
      rw [Nat.sub_add_eq]
    · rw [Nat.sub_eq_zero_of_le (by omega), Nat.sub_eq_zero_of_le (by omega)]

/-- Enough rounds add all entries. -/
lemma scan_full (v : ℕ → M) {rounds lane : ℕ} (h : lane < 2 ^ rounds) :
    scan v rounds lane = ∑ i ∈ range (lane + 1), v i := by
  rw [scan_eq, Nat.sub_eq_zero_of_le h, range_eq_Ico]

/-- The sums of the blocks. -/
lemma sum_blocks (v : ℕ → M) (n blocks : ℕ) :
    ∑ b ∈ range blocks, ∑ i ∈ range n, v (n * b + i) = ∑ i ∈ range (n * blocks), v i := by
  induction blocks with
  | zero => rfl
  | succ blocks ih => rw [sum_range_succ, ih, Nat.mul_succ, sum_range_add]

/-- A sum over a list. -/
lemma sum_map_range (v : ℕ → M) (n : ℕ) : ((List.range n).map v).sum = ∑ i ∈ range n, v i := by
  induction n with
  | zero => rfl
  | succ n ih => rw [List.range_succ, List.map_append, List.sum_append, ih, sum_range_succ, List.map_singleton, List.sum_singleton]

end Lib
