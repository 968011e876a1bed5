import Mathlib.Algebra.Group.Int.Defs
import Mathlib.Algebra.Group.Nat.Defs
import Mathlib.Tactic.Common

/-!
# Machine words

An operation on a fixed-width integer type keeps the low bits of the exact result. `u32`, `usize` and `i32`
take an exact value to the one that is kept, which is the value itself as long as it is in range.
-/

namespace Lib

/-- A value in a `u32`. -/
def u32 (n : ℕ) : ℕ := n % 2 ^ 32

/-- A value in a `usize` of 64 bits. -/
def usize (n : ℕ) : ℕ := n % 2 ^ 64

/-- A value in an `i32`. -/
def i32 (z : ℤ) : ℤ := z.bmod (2 ^ 32)

lemma u32_of_lt {n : ℕ} (h : n < 2 ^ 32) : u32 n = n := Nat.mod_eq_of_lt h

lemma u32_eq_self_iff {n : ℕ} : u32 n = n ↔ n < 2 ^ 32 := Nat.mod_eq_iff_lt (by decide)

/-! Wrapping early or late leaves the same word. -/

@[simp] lemma u32_u32 (n : ℕ) : u32 (u32 n) = u32 n := Nat.mod_mod n _

@[simp] lemma u32_add_left (a b : ℕ) : u32 (u32 a + b) = u32 (a + b) := Nat.mod_add_mod a _ b

@[simp] lemma u32_add_right (a b : ℕ) : u32 (a + u32 b) = u32 (a + b) := Nat.add_mod_mod a b _

@[simp] lemma u32_mul_left (a b : ℕ) : u32 (u32 a * b) = u32 (a * b) := Nat.mod_mul_mod a b _

@[simp] lemma u32_mul_right (a b : ℕ) : u32 (a * u32 b) = u32 (a * b) := Nat.mul_mod_mod a b _

lemma usize_of_lt {n : ℕ} (h : n < 2 ^ 64) : usize n = n := Nat.mod_eq_of_lt h

lemma i32_of_mem {z : ℤ} (hlo : -2 ^ 31 ≤ z) (hhi : z < 2 ^ 31) : i32 z = z := by
  rw [i32, Int.bmod_eq_of_le_mul_two] <;> omega

/-- A sum past the largest `i32` comes out negative. -/
lemma i32_of_ge {z : ℤ} (hlo : 2 ^ 31 ≤ z) (hhi : z < 2 ^ 32) : i32 z = z - 2 ^ 32 := by
  have hsub : z.bmod (2 ^ 32) = (z - 2 ^ 32).bmod (2 ^ 32) := by
    have hcast : ((2 ^ 32 : ℕ) : ℤ) = 2 ^ 32 := rfl
    rw [← hcast, Int.sub_bmod_right]
  rw [i32, hsub]
  exact i32_of_mem (by omega) (by omega)

end Lib
