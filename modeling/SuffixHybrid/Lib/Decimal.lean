import Mathlib.Algebra.Order.Field.Power
import Mathlib.Data.Nat.Digits.Lemmas
import Mathlib.Tactic.Linarith
import Mathlib.Tactic.Positivity
import Mathlib.Tactic.Ring

/-!
# Shortest decimals

A decimal is a list of digits with the place of its point: the value is `0.d₁d₂… · 10 ^ point`. The
shortest decimal of a value is one of the fewest digits that a rounding takes to the value. Where its
point stands tells on which side of a power of ten the value is (`Shortest.lt_iff`).
-/

namespace Lib

structure Decimal where
  digits : List ℕ
  point : ℤ
deriving DecidableEq

namespace Decimal

/-- `0.d₁d₂… · 10 ^ point`. -/
def value (d : Decimal) : ℚ :=
  (Nat.ofDigits 10 d.digits.reverse : ℕ) * 10 ^ (d.point - d.digits.length)

/-- There are digits, and the first one is not zero. -/
structure Normal (d : Decimal) : Prop where
  lt : ∀ i ∈ d.digits, i < 10
  head : 0 < d.digits.headD 0

/-- A decimal of the fewest digits that is rounded to the value. -/
structure Shortest (round : ℚ → ℚ) (x : ℚ) (d : Decimal) : Prop extends Normal d where
  round_value : round d.value = x
  least : ∀ e : Decimal, e.Normal → round e.value = x → d.digits.length ≤ e.digits.length

lemma Normal.ne_nil {d : Decimal} (h : d.Normal) : d.digits ≠ [] := by
  intro hnil
  have hhead := h.head
  rw [hnil] at hhead
  exact absurd hhead (lt_irrefl 0)

lemma Normal.length_pos {d : Decimal} (h : d.Normal) : 0 < d.digits.length :=
  List.length_pos_iff.mpr h.ne_nil

/-- The digits as a natural have as many places as there are digits. -/
lemma Normal.ofDigits_mem {d : Decimal} (h : d.Normal) :
    10 ^ (d.digits.length - 1) ≤ Nat.ofDigits 10 d.digits.reverse ∧
      Nat.ofDigits 10 d.digits.reverse < 10 ^ d.digits.length := by
  constructor
  · obtain ⟨digits, point⟩ := d
    cases digits with
    | nil => exact absurd rfl h.ne_nil
    | cons i l =>
      have hi : 1 ≤ i := h.head
      simp only [List.reverse_cons, Nat.ofDigits_append, List.length_reverse, Nat.ofDigits_singleton,
        List.length_cons, Nat.add_sub_cancel]
      calc 10 ^ l.length = 10 ^ l.length * 1 := (mul_one _).symm
        _ ≤ 10 ^ l.length * i := Nat.mul_le_mul_left _ hi
        _ ≤ Nat.ofDigits 10 l.reverse + 10 ^ l.length * i := Nat.le_add_left _ _
  · have hlt := Nat.ofDigits_lt_base_pow_length (b := 10) (by norm_num)
      (fun i hi => h.lt i (List.mem_reverse.mp hi))
    rwa [List.length_reverse] at hlt

/-- The value is from the power of ten below the point on. -/
lemma Normal.zpow_le_value {d : Decimal} (h : d.Normal) : (10 : ℚ) ^ (d.point - 1) ≤ d.value := by
  have hlow : ((10 ^ (d.digits.length - 1) : ℕ) : ℚ) ≤ (Nat.ofDigits 10 d.digits.reverse : ℕ) := by
    exact_mod_cast h.ofDigits_mem.1
  have hlen := h.length_pos
  calc (10 : ℚ) ^ (d.point - 1)
      = ((10 ^ (d.digits.length - 1) : ℕ) : ℚ) * 10 ^ (d.point - d.digits.length) := by
        push_cast
        rw [← zpow_natCast, ← zpow_add₀ (by norm_num)]
        congr 1
        omega
    _ ≤ d.value := mul_le_mul_of_nonneg_right hlow (zpow_nonneg (by norm_num) _)

/-- The value is below the power of ten of the point. -/
lemma Normal.value_lt_zpow {d : Decimal} (h : d.Normal) : d.value < (10 : ℚ) ^ d.point := by
  have hhigh : ((Nat.ofDigits 10 d.digits.reverse : ℕ) : ℚ) < ((10 ^ d.digits.length : ℕ) : ℚ) := by
    exact_mod_cast h.ofDigits_mem.2
  calc d.value < ((10 ^ d.digits.length : ℕ) : ℚ) * 10 ^ (d.point - d.digits.length) :=
        mul_lt_mul_of_pos_right hhigh (zpow_pos (by norm_num) _)
    _ = (10 : ℚ) ^ d.point := by
        push_cast
        rw [← zpow_natCast, ← zpow_add₀ (by norm_num)]
        congr 1
        omega

/-- A power of ten is a decimal of one digit. -/
lemma value_one (j : ℤ) : value ⟨[1], j + 1⟩ = 10 ^ j := by
  simp [value]

lemma normal_one (j : ℤ) : Normal ⟨[1], j + 1⟩ := ⟨by simp, by simp⟩

/-- A decimal of one digit is at most nine times the power of ten below its point. -/
lemma Normal.value_le_of_length {d : Decimal} (h : d.Normal) (hlen : d.digits.length = 1) :
    d.value ≤ 9 * 10 ^ (d.point - 1) := by
  obtain ⟨digits, point⟩ := d
  obtain ⟨i, rfl⟩ := List.length_eq_one_iff.mp hlen
  have hi : i ≤ 9 := Nat.le_of_lt_succ (h.lt i List.mem_cons_self)
  have hcast : (i : ℚ) ≤ 9 := by exact_mod_cast hi
  simp only [value, List.reverse_singleton, Nat.ofDigits_singleton, List.length_singleton, Nat.cast_one]
  exact mul_le_mul_of_nonneg_right hcast (zpow_nonneg (by norm_num) _)

/-- The point of the shortest decimal stands at most at `j` if the value is below what `10 ^ j` is rounded
to, provided that the rounding keeps the order and tells `10 ^ j` from the decimals of one digit below. -/
theorem Shortest.lt_iff {round : ℚ → ℚ} (hmono : ∀ p q : ℚ, 0 ≤ p → p ≤ q → round p ≤ round q) {j : ℤ}
    (hgap : round (9 * 10 ^ (j - 1)) < round (10 ^ j)) {x : ℚ} {d : Decimal} (h : Shortest round x d) :
    x < round (10 ^ j) ↔ d.point ≤ j := by
  have hnonneg : ∀ i : ℤ, (0 : ℚ) ≤ 10 ^ i := fun i => zpow_nonneg (by norm_num) i
  constructor
  · intro hlt
    by_contra hpoint
    have hle : (10 : ℚ) ^ j ≤ d.value :=
      (zpow_le_zpow_right₀ (by norm_num) (by omega)).trans h.zpow_le_value
    have hround := hmono _ _ (hnonneg j) hle
    rw [h.round_value] at hround
    exact absurd hlt (not_lt.mpr hround)
  · intro hpoint
    have hle : d.value ≤ 10 ^ j :=
      h.value_lt_zpow.le.trans (zpow_le_zpow_right₀ (by norm_num) hpoint)
    have hvalue : 0 ≤ d.value := (hnonneg _).trans h.zpow_le_value
    have hround := hmono _ _ hvalue hle
    rw [h.round_value] at hround
    refine lt_of_le_of_ne hround fun heq => ?_
    -- The power of ten itself would be the shorter decimal.
    have hone := h.least ⟨[1], j + 1⟩ (normal_one j) (by rw [value_one, heq])
    have hlen : d.digits.length = 1 := le_antisymm hone h.length_pos
    have hnine : d.value ≤ 9 * 10 ^ (j - 1) := (h.value_le_of_length hlen).trans
      (mul_le_mul_of_nonneg_left (zpow_le_zpow_right₀ (by norm_num) (by omega)) (by norm_num))
    have hbelow := hmono _ _ hvalue hnine
    rw [h.round_value, heq] at hbelow
    exact absurd hgap (not_lt.mpr hbelow)

end Decimal
end Lib
