import Mathlib.Algebra.Order.Field.Power
import Mathlib.Tactic.Linarith
import Mathlib.Tactic.Positivity
import Mathlib.Tactic.Ring
import SuffixHybrid.Lib.Float

/-!
# The rounding error of binary64

A rounded value is off by at most half a unit in the last place (`abs_roundBinary64_sub_le`), keeps
its sign (`roundBinary64_nonneg`), and is exact on small naturals (`roundBinary64_natCast`). Rounding
keeps the order of the values (`roundBinary64_mono`). An average of two values stays between zero and a
bound on them, if the newer one keeps some distance from it (`roundBinary64_average_mem`).
-/

namespace Lib
namespace F64

lemma abs_nearestEven_sub_le (x : ℚ) : |(nearestEven x : ℚ) - x| ≤ 1 / 2 := by
  have hle := Int.floor_le x
  have hlt := Int.lt_floor_add_one x
  rw [abs_le]
  unfold nearestEven
  dsimp only
  split
  · constructor <;> linarith
  · split
    · push_cast
      constructor <;> linarith
    · split
      · constructor <;> linarith
      · push_cast
        constructor <;> linarith

lemma nearestEven_nonneg {x : ℚ} (h : 0 ≤ x) : 0 ≤ nearestEven x := by
  have hfloor : 0 ≤ ⌊x⌋ := Int.floor_nonneg.mpr h
  unfold nearestEven
  dsimp only
  split
  · exact hfloor
  · split
    · omega
    · split <;> omega

lemma nearestEven_intCast (z : ℤ) : nearestEven z = z := by
  unfold nearestEven
  simp

/-- The exponent of a positive rational is right from below. -/
lemma zpow_exponent_le {q : ℚ} (h : 0 < q) : (2 : ℚ) ^ exponent q ≤ q := by
  unfold exponent
  dsimp only
  split
  case isTrue hle => exact hle
  case isFalse =>
    have hnum : q.num.natAbs ≠ 0 := by
      rw [Int.natAbs_ne_zero]
      exact (Rat.num_pos.mpr h).ne'
    have hlow : (2 : ℚ) ^ Nat.log2 q.num.natAbs ≤ q.num.natAbs := by
      exact_mod_cast Nat.log2_self_le hnum
    have hhigh : (q.den : ℚ) ≤ 2 ^ (Nat.log2 q.den + 1) := by
      exact_mod_cast (Nat.lt_log2_self (n := q.den)).le
    have hden : (0 : ℚ) < q.den := by exact_mod_cast q.den_pos
    have hq : (q.num.natAbs : ℚ) / q.den = q := by
      have hcast : ((q.num.natAbs : ℤ) : ℚ) = q.num := by
        rw [Int.natAbs_of_nonneg (Rat.num_pos.mpr h).le]
      calc (q.num.natAbs : ℚ) / q.den = ((q.num.natAbs : ℤ) : ℚ) / q.den := by rw [Int.cast_natCast]
        _ = q.num / q.den := by rw [hcast]
        _ = q := Rat.num_div_den q
    calc (2 : ℚ) ^ ((Nat.log2 q.num.natAbs : ℤ) - Nat.log2 q.den - 1)
        = 2 ^ Nat.log2 q.num.natAbs / 2 ^ (Nat.log2 q.den + 1) := by
          rw [sub_sub, zpow_sub₀ (by norm_num)]
          norm_cast
      _ ≤ q.num.natAbs / q.den := by gcongr
      _ = q := hq

/-- The exponent of a positive rational is right from above. -/
lemma lt_zpow_exponent {q : ℚ} (h : 0 < q) : q < (2 : ℚ) ^ (exponent q + 1) := by
  unfold exponent
  dsimp only
  split
  case isTrue =>
    have hden : q.den ≠ 0 := q.den_pos.ne'
    have hlow : (2 : ℚ) ^ Nat.log2 q.den ≤ q.den := by
      exact_mod_cast Nat.log2_self_le hden
    have hhigh : (q.num.natAbs : ℚ) < 2 ^ (Nat.log2 q.num.natAbs + 1) := by
      exact_mod_cast Nat.lt_log2_self (n := q.num.natAbs)
    have hcast : ((q.num.natAbs : ℤ) : ℚ) = q.num := by
      rw [Int.natAbs_of_nonneg (Rat.num_pos.mpr h).le]
    calc q = q.num / q.den := (Rat.num_div_den q).symm
      _ = (q.num.natAbs : ℚ) / q.den := by rw [← hcast, Int.cast_natCast]
      _ ≤ (q.num.natAbs : ℚ) / 2 ^ Nat.log2 q.den := by gcongr
      _ < 2 ^ (Nat.log2 q.num.natAbs + 1) / 2 ^ Nat.log2 q.den := by gcongr
      _ = 2 ^ ((Nat.log2 q.num.natAbs : ℤ) - Nat.log2 q.den + 1) := by
        rw [show (Nat.log2 q.num.natAbs : ℤ) - Nat.log2 q.den + 1
          = (Nat.log2 q.num.natAbs + 1 : ℕ) - (Nat.log2 q.den : ℕ) by push_cast; ring]
        rw [zpow_sub₀ (by norm_num), zpow_natCast, zpow_natCast]
  case isFalse hlt =>
    rw [sub_add_cancel]
    exact not_le.mp hlt

/-- The larger of two values has the larger exponent. -/
lemma exponent_mono {p q : ℚ} (hp : 0 < p) (hpq : p ≤ q) : exponent p ≤ exponent q := by
  have hlow := zpow_exponent_le hp
  have hhigh := lt_zpow_exponent (hp.trans_le hpq)
  have hlt : (2 : ℚ) ^ exponent p < 2 ^ (exponent q + 1) := (hlow.trans hpq).trans_lt hhigh
  rw [zpow_lt_zpow_iff_right₀ (by norm_num)] at hlt
  omega

lemma nearestEven_mono {x y : ℚ} (h : x ≤ y) : nearestEven x ≤ nearestEven y := by
  have hfloor : ⌊x⌋ ≤ ⌊y⌋ := Int.floor_le_floor h
  rcases hfloor.lt_or_eq with hlt | heq
  · have hx : nearestEven x ≤ ⌊x⌋ + 1 := by
      unfold nearestEven
      dsimp only
      split_ifs <;> omega
    have hy : ⌊y⌋ ≤ nearestEven y := by
      unfold nearestEven
      dsimp only
      split_ifs <;> omega
    omega
  · -- In one unit interval the two distances from the floor decide.
    have hfrac : x - ⌊x⌋ ≤ y - ⌊x⌋ := by linarith
    unfold nearestEven
    dsimp only
    rw [← heq]
    split_ifs <;> first | omega | (exfalso; linarith)

/-- A rounded value is off by at most half a unit in the last place. -/
theorem abs_roundBinary64_sub_le (q : ℚ) :
    |roundBinary64 q - q| ≤ |q| / 2 ^ 53 + 2 ^ (-1074 : ℤ) / 2 := by
  unfold roundBinary64
  split
  case isTrue h =>
    have htiny : (0 : ℚ) ≤ 2 ^ (-1074 : ℤ) / 2 := div_nonneg (zpow_nonneg (by norm_num) _) (by norm_num)
    simpa [h] using htiny
  case isFalse h =>
    dsimp only
    have hpos : 0 < |q| := abs_pos.mpr h
    generalize hulp : (2 : ℚ) ^ max (exponent |q| - 52) (-1074) = ulp
    have hulp_pos : 0 < ulp := hulp ▸ zpow_pos (by norm_num) _
    generalize htiny : (2 : ℚ) ^ (-1074 : ℤ) = tiny
    have htiny_nonneg : 0 ≤ tiny := htiny ▸ zpow_nonneg (by norm_num) _
    have hulp_le : ulp ≤ |q| / 2 ^ 52 + tiny := by
      have htop : (2 : ℚ) ^ (exponent |q| - 52) ≤ |q| / 2 ^ 52 := by
        rw [zpow_sub₀ (by norm_num)]
        have hexp := zpow_exponent_le hpos
        have hcast : (2 : ℚ) ^ (52 : ℤ) = 2 ^ 52 := by norm_cast
        rw [hcast]
        gcongr
      have hnonneg : 0 ≤ |q| / 2 ^ 52 := by positivity
      rw [← hulp]
      rcases max_choice (exponent |q| - 52) (-1074) with hmax | hmax
      · rw [hmax]
        linarith
      · rw [hmax, htiny]
        linarith
    have hround := abs_nearestEven_sub_le (q / ulp)
    have hsplit : (nearestEven (q / ulp) : ℚ) * ulp - q = (nearestEven (q / ulp) - q / ulp) * ulp := by
      field_simp
    rw [hsplit, abs_mul, abs_of_pos hulp_pos]
    calc |(nearestEven (q / ulp) : ℚ) - q / ulp| * ulp ≤ 1 / 2 * ulp := by gcongr
      _ ≤ 1 / 2 * (|q| / 2 ^ 52 + tiny) := by gcongr
      _ = |q| / 2 ^ 53 + tiny / 2 := by ring

lemma roundBinary64_nonneg {q : ℚ} (h : 0 ≤ q) : 0 ≤ roundBinary64 q := by
  unfold roundBinary64
  split
  · exact le_rfl
  · dsimp only
    have hulp : (0 : ℚ) < 2 ^ max (exponent |q| - 52) (-1074) := zpow_pos (by norm_num) _
    have hnear : (0 : ℚ) ≤ nearestEven (q / 2 ^ max (exponent |q| - 52) (-1074)) := by
      exact_mod_cast nearestEven_nonneg (div_nonneg h hulp.le)
    exact mul_nonneg hnear hulp.le

/-- Naturals of at most 53 bits are exact. -/
theorem roundBinary64_natCast {n : ℕ} (h : n < 2 ^ 53) : roundBinary64 n = n := by
  unfold roundBinary64
  split
  case isTrue h0 => exact h0.symm
  case isFalse h0 =>
    dsimp only
    have hn : n ≠ 0 := by exact_mod_cast h0
    have hlog : Nat.log2 n ≤ 52 := by
      have hlt := (Nat.log2_lt hn).mpr h
      omega
    have hexp : exponent |(n : ℚ)| = Nat.log2 n := by
      have hle : (2 : ℚ) ^ Nat.log2 n ≤ n := by exact_mod_cast Nat.log2_self_le hn
      have hone : Nat.log2 1 = 0 := by decide
      unfold exponent
      simp [hle, hone]
    have hulp : (2 : ℚ) ^ max (exponent |(n : ℚ)| - 52) (-1074) = 1 / 2 ^ (52 - Nat.log2 n) := by
      have hmax : max ((Nat.log2 n : ℤ) - 52) (-1074) = -((52 - Nat.log2 n : ℕ) : ℤ) := by omega
      rw [hexp, hmax, zpow_neg, one_div, zpow_natCast]
    have hint : (n : ℚ) / (1 / 2 ^ (52 - Nat.log2 n)) = ((n * 2 ^ (52 - Nat.log2 n) : ℤ) : ℚ) := by
      push_cast
      field_simp
    rw [hulp, hint, nearestEven_intCast]
    push_cast
    field_simp

/-- A value is rounded to at most the next power of two. -/
lemma roundBinary64_le_zpow {p : ℚ} (hp : 0 < p) {e : ℤ} (he : exponent p < e) (hmin : -1074 ≤ e) :
    roundBinary64 p ≤ 2 ^ e := by
  unfold roundBinary64
  rw [if_neg hp.ne', abs_of_pos hp]
  dsimp only
  generalize hulp : max (exponent p - 52) (-1074) = u
  have hupos : (0 : ℚ) < 2 ^ u := zpow_pos (by norm_num) _
  obtain ⟨k, rfl⟩ : ∃ k : ℕ, e = u + k := ⟨(e - u).toNat, by omega⟩
  have hsplit : ((2 ^ k : ℤ) : ℚ) * 2 ^ u = 2 ^ (u + k) := by
    rw [zpow_add₀ (by norm_num), zpow_natCast, mul_comm]
    push_cast
    rfl
  have hquot : p / 2 ^ u ≤ ((2 ^ k : ℤ) : ℚ) := by
    rw [div_le_iff₀ hupos, hsplit]
    exact (lt_zpow_exponent hp).le.trans (zpow_le_zpow_right₀ (by norm_num) he)
  have hnear := nearestEven_mono hquot
  rw [nearestEven_intCast] at hnear
  rw [← hsplit]
  apply mul_le_mul_of_nonneg_right _ hupos.le
  exact_mod_cast hnear

/-- A normal value is rounded to at least the power of two below it. -/
lemma zpow_le_roundBinary64 {q : ℚ} (hq : 0 < q) (hmin : -1022 ≤ exponent q) :
    2 ^ exponent q ≤ roundBinary64 q := by
  unfold roundBinary64
  rw [if_neg hq.ne', abs_of_pos hq]
  dsimp only
  rw [max_eq_left (by omega)]
  generalize hulp : exponent q - 52 = u
  have hupos : (0 : ℚ) < 2 ^ u := zpow_pos (by norm_num) _
  have hsplit : ((2 ^ 52 : ℤ) : ℚ) * 2 ^ u = 2 ^ exponent q := by
    rw [show exponent q = u + (52 : ℕ) by omega, zpow_add₀ (by norm_num), zpow_natCast, mul_comm]
    push_cast
    rfl
  have hquot : ((2 ^ 52 : ℤ) : ℚ) ≤ q / 2 ^ u := by
    rw [le_div_iff₀ hupos, hsplit]
    exact zpow_exponent_le hq
  have hnear := nearestEven_mono hquot
  rw [nearestEven_intCast] at hnear
  rw [← hsplit]
  apply mul_le_mul_of_nonneg_right _ hupos.le
  exact_mod_cast hnear

/-- Rounding keeps the order of the values. -/
theorem roundBinary64_mono {p q : ℚ} (hp : 0 ≤ p) (hpq : p ≤ q) : roundBinary64 p ≤ roundBinary64 q := by
  rcases hp.eq_or_lt with rfl | hp
  · have hzero : roundBinary64 0 = 0 := if_pos rfl
    rw [hzero]
    exact roundBinary64_nonneg hpq
  have hq : 0 < q := hp.trans_le hpq
  have hexp := exponent_mono hp hpq
  by_cases hsame : max (exponent p - 52) (-1074) = max (exponent q - 52) (-1074)
  · unfold roundBinary64
    rw [if_neg hp.ne', if_neg hq.ne', abs_of_pos hp, abs_of_pos hq]
    dsimp only
    rw [hsame]
    have hpos : (0 : ℚ) < 2 ^ max (exponent q - 52) (-1074) := zpow_pos (by norm_num) _
    have hnear := nearestEven_mono (div_le_div_of_nonneg_right hpq hpos.le)
    apply mul_le_mul_of_nonneg_right _ hpos.le
    exact_mod_cast hnear
  · -- A power of two lies between the two.
    exact (roundBinary64_le_zpow hp (by omega) (by omega)).trans (zpow_le_roundBinary64 hq (by omega))

/-- So is their conversion. -/
lemma ofNat_of_lt {n : ℕ} (h : n < 2 ^ 53) : ofNat n = n := roundBinary64_natCast h

/-- A coarse bound on the error, for estimates with room to spare. -/
lemma roundBinary64_le {q : ℚ} (h : 0 ≤ q) : roundBinary64 q ≤ q + q / 1000000 + 1 / 1000000 := by
  have hround := (abs_le.mp (abs_roundBinary64_sub_le q)).2
  rw [abs_of_nonneg h] at hround
  have htiny : (2 : ℚ) ^ (-1074 : ℤ) ≤ 1 / 1000000 := by
    calc (2 : ℚ) ^ (-1074 : ℤ) ≤ 2 ^ (-20 : ℤ) := zpow_le_zpow_right₀ (by norm_num) (by norm_num)
      _ ≤ 1 / 1000000 := by norm_num
  have hrel : q / 2 ^ 53 ≤ q / 1000000 := by
    apply div_le_div_of_nonneg_left h <;> norm_num
  linarith

/-- An average of `e` and `x` with the weights 0.7 and 0.3 stays between zero and a bound of at most 64
on `e`, if `x` is below the bound by one. -/
theorem roundBinary64_average_mem {e x k : ℚ} (he : 0 ≤ e) (hek : e ≤ k) (hx : 0 ≤ x)
    (hxk : x ≤ k - 1) (hk : k ≤ 64) :
    0 ≤ roundBinary64 (roundBinary64 (roundBinary64 (7 / 10) * e)
        + roundBinary64 (roundBinary64 (3 / 10) * x)) ∧
      roundBinary64 (roundBinary64 (roundBinary64 (7 / 10) * e)
        + roundBinary64 (roundBinary64 (3 / 10) * x)) ≤ k := by
  have h7 := roundBinary64_nonneg (show (0 : ℚ) ≤ 7 / 10 by norm_num)
  have h3 := roundBinary64_nonneg (show (0 : ℚ) ≤ 3 / 10 by norm_num)
  have h7' := roundBinary64_le (show (0 : ℚ) ≤ 7 / 10 by norm_num)
  have h3' := roundBinary64_le (show (0 : ℚ) ≤ 3 / 10 by norm_num)
  generalize roundBinary64 (7 / 10) = a at h7 h7' ⊢
  generalize roundBinary64 (3 / 10) = b at h3 h3' ⊢
  have hae := roundBinary64_nonneg (mul_nonneg h7 he)
  have hbx := roundBinary64_nonneg (mul_nonneg h3 hx)
  have hae' := roundBinary64_le (mul_nonneg h7 he)
  have hbx' := roundBinary64_le (mul_nonneg h3 hx)
  have hak : a * e ≤ (7 / 10 + 7 / 10 / 1000000 + 1 / 1000000) * k := by gcongr
  have hbk : b * x ≤ (3 / 10 + 3 / 10 / 1000000 + 1 / 1000000) * (k - 1) := by gcongr
  generalize roundBinary64 (a * e) = u at hae hae' ⊢
  generalize roundBinary64 (b * x) = v at hbx hbx' ⊢
  have huv := roundBinary64_le (add_nonneg hae hbx)
  exact ⟨roundBinary64_nonneg (add_nonneg hae hbx), by linarith⟩

end F64
end Lib
