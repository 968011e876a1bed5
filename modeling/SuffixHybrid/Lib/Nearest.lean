import Mathlib.Algebra.Order.Ring.Abs
import Mathlib.Data.List.Nodup
import Mathlib.Order.Interval.Set.Basic
import Mathlib.Tactic.GCongr
import Mathlib.Tactic.Linarith
import Mathlib.Tactic.Ring
import SuffixHybrid.Lib.Float

/-!
# The nearest point of a grid

The points of a grid increase with their codes. `NearestEven g n a k` says that of the codes up to `n` the point
of `k` is nearest to `a`, and that `k` is even if another point is as near. There is one such code
(`NearestEven.unique`), and it grows with the value (`NearestEven.mono`). Only the two neighbours of a value
matter (`nearestEven_lower`, `nearestEven_upper`), where the grid is uniform the nearest integer gives the code
(`nearestEven_uniform`), and on any grid the number of midpoints below the value does (`nearestEven_count`).
-/

namespace Lib
variable {g : ℕ → ℚ} {n : ℕ} {a b p q r : ℚ} {j k c : ℕ}

/-- The code of the nearest grid point, the even one of two. -/
structure NearestEven (g : ℕ → ℚ) (n : ℕ) (a : ℚ) (k : ℕ) : Prop where
  le : k ≤ n
  nearest : ∀ j ≤ n, |a - g k| ≤ |a - g j|
  even : ∀ j ≤ n, |a - g j| = |a - g k| → j = k ∨ Even k

/-! ## Two points and a value -/

/-- The upper point is no farther from the midpoint on. -/
lemma abs_sub_upper_le_iff (h : p < r) : |a - r| ≤ |a - p| ↔ p + r ≤ 2 * a := by
  have hdiff : (a - p) ^ 2 - (a - r) ^ 2 = (r - p) * (2 * a - (p + r)) := by ring
  rw [← sq_le_sq, ← sub_nonneg, hdiff, mul_nonneg_iff_of_pos_left (sub_pos.mpr h), sub_nonneg]

/-- The lower point is no farther up to the midpoint. -/
lemma abs_sub_lower_le_iff (h : p < r) : |a - p| ≤ |a - r| ↔ 2 * a ≤ p + r := by
  have hdiff : (a - r) ^ 2 - (a - p) ^ 2 = (r - p) * (p + r - 2 * a) := by ring
  rw [← sq_le_sq, ← sub_nonneg, hdiff, mul_nonneg_iff_of_pos_left (sub_pos.mpr h), sub_nonneg]

/-- The midpoint is as near to both. -/
lemma abs_sub_eq_iff (h : p < r) : |a - p| = |a - r| ↔ 2 * a = p + r := by
  rw [le_antisymm_iff, abs_sub_lower_le_iff h, abs_sub_upper_le_iff h, ← le_antisymm_iff]

/-- A value between the ends of the grid is between two neighbours. -/
lemma exists_neighbours (h0 : g 0 ≤ a) (hn : a ≤ g (n + 1)) : ∃ m ≤ n, g m ≤ a ∧ a ≤ g (m + 1) := by
  induction n with
  | zero => exact ⟨0, le_rfl, h0, hn⟩
  | succ n ih =>
    obtain hle | hle := le_total (g (n + 1)) a
    · exact ⟨n + 1, le_rfl, hle, hn⟩
    · obtain ⟨m, hm, hmem⟩ := ih hle
      exact ⟨m, by omega, hmem⟩

section
variable (hg : StrictMonoOn g (Set.Iic n))
include hg

/-- No code lies between two nearest codes. -/
lemma eq_succ_of_tie (hnear : ∀ i ≤ n, |a - g j| ≤ |a - g i|) (hjk : j < k) (hk : k ≤ n)
    (htie : |a - g j| = |a - g k|) : k = j + 1 := by
  by_contra hne
  have hgap : j + 1 < k := by omega
  have hlow : g j < g (j + 1) := hg (by simp; omega) (by simp; omega) (Nat.lt_succ_self j)
  have hhigh : g (j + 1) < g k := hg (by simp; omega) hk hgap
  have hmid := (abs_sub_eq_iff (hlow.trans hhigh)).mp htie
  have := (abs_sub_lower_le_iff hlow).mp (hnear (j + 1) (by omega))
  linarith

namespace NearestEven

theorem unique (hj : NearestEven g n a j) (hk : NearestEven g n a k) : j = k := by
  have htie : |a - g j| = |a - g k| := le_antisymm (hj.nearest k hk.le) (hk.nearest j hj.le)
  obtain heq | hek := hk.even j hj.le htie
  · exact heq
  obtain heq | hej := hj.even k hk.le htie.symm
  · exact heq.symm
  -- two even codes are not neighbours
  obtain hlt | heq | hlt := lt_trichotomy j k
  · have hsucc := eq_succ_of_tie hg hj.nearest hlt hk.le htie
    rw [hsucc, Nat.even_add_one] at hek
    exact absurd hej hek
  · exact heq
  · have hsucc := eq_succ_of_tie hg hk.nearest hlt hj.le htie.symm
    rw [hsucc, Nat.even_add_one] at hej
    exact absurd hek hej

/-- A larger value has no smaller code. -/
theorem mono (hab : a ≤ b) (hj : NearestEven g n a j) (hk : NearestEven g n b k) : j ≤ k := by
  by_contra hlt
  replace hlt := not_le.mp hlt
  have hpoint : g k < g j := hg hk.le hj.le hlt
  have hlow := (abs_sub_upper_le_iff hpoint).mp (hj.nearest k hk.le)
  have hhigh := (abs_sub_lower_le_iff hpoint).mp (hk.nearest j hj.le)
  have heq : a = b := by linarith
  subst heq
  exact hlt.ne' (hj.unique hg hk)

/-- A grid point is nearest to itself. -/
lemma self (hk : k ≤ n) : NearestEven g n (g k) k where
  le := hk
  nearest j _ := by
    rw [sub_self, abs_zero]
    exact abs_nonneg _
  even j hj htie := by
    rw [sub_self, abs_zero, abs_eq_zero, sub_eq_zero] at htie
    exact .inl (hg.injOn hj hk htie.symm)

/-- Beyond the grid the last point is nearest. -/
lemma last (ha : g n ≤ a) : NearestEven g n a n where
  le := le_rfl
  nearest j hj := by
    have hle : g j ≤ g n := hg.monotoneOn hj (le_refl n) hj
    rw [abs_of_nonneg (sub_nonneg.mpr ha), abs_of_nonneg (sub_nonneg.mpr (hle.trans ha))]
    linarith
  even j hj htie := by
    obtain rfl | hlt := hj.eq_or_lt
    · exact .inl rfl
    · have hpoint : g j < g n := hg hj (le_refl n) hlt
      have := (abs_sub_eq_iff hpoint).mp htie
      linarith

end NearestEven

/-! ## The two neighbours -/

lemma nearestEven_lower (hc : c + 1 ≤ n) (hlo : g c ≤ a) (hmid : 2 * a ≤ g c + g (c + 1))
    (htie : 2 * a = g c + g (c + 1) → Even c) : NearestEven g n a c := by
  have hcn : c ≤ n := by omega
  constructor
  case le => exact hcn
  case nearest =>
    intro j hj
    obtain hlt | rfl | hlt := lt_trichotomy j c
    · have hpoint : g j < g c := hg hj hcn hlt
      rw [abs_sub_upper_le_iff hpoint]
      linarith
    · exact le_rfl
    · have hnext : g (c + 1) ≤ g j := hg.monotoneOn hc hj hlt
      rw [abs_sub_lower_le_iff (hg hcn hj hlt)]
      linarith
  case even =>
    intro j hj he
    obtain hlt | rfl | hlt := lt_trichotomy j c
    · have hpoint : g j < g c := hg hj hcn hlt
      rw [abs_sub_eq_iff hpoint] at he
      linarith
    · exact .inl rfl
    · have hnext : g (c + 1) ≤ g j := hg.monotoneOn hc hj hlt
      have heq := (abs_sub_eq_iff (hg hcn hj hlt)).mp he.symm
      exact .inr (htie (by linarith))

lemma nearestEven_upper (hc : c + 1 ≤ n) (hhi : a ≤ g (c + 1)) (hmid : g c + g (c + 1) ≤ 2 * a)
    (htie : 2 * a = g c + g (c + 1) → Even (c + 1)) : NearestEven g n a (c + 1) := by
  have hcn : c ≤ n := by omega
  constructor
  case le => exact hc
  case nearest =>
    intro j hj
    obtain hlt | rfl | hlt := lt_trichotomy j (c + 1)
    · have hprev : g j ≤ g c := hg.monotoneOn hj hcn (Nat.le_of_lt_succ hlt)
      rw [abs_sub_upper_le_iff (hg hj hc hlt)]
      linarith
    · exact le_rfl
    · have hpoint : g (c + 1) < g j := hg hc hj hlt
      rw [abs_sub_lower_le_iff hpoint]
      linarith
  case even =>
    intro j hj he
    obtain hlt | rfl | hlt := lt_trichotomy j (c + 1)
    · have hprev : g j ≤ g c := hg.monotoneOn hj hcn (Nat.le_of_lt_succ hlt)
      have heq := (abs_sub_eq_iff (hg hj hc hlt)).mp he
      exact .inr (htie (by linarith))
    · exact .inl rfl
    · have hpoint : g (c + 1) < g j := hg hc hj hlt
      have heq := (abs_sub_eq_iff hpoint).mp he.symm
      linarith

/-- On a uniform stretch of the grid the nearest integer counts from its first code. -/
lemma nearestEven_uniform {w : ℕ} {s t u : ℚ} (hu : 0 < u) (heven : Even c) (hw : c + w ≤ n)
    (hgrid : ∀ m ≤ w, g (c + m) = (s + m) * u) (h0 : 0 ≤ t) (htw : t < w) :
    (F64.nearestEven t).toNat ≤ w ∧ NearestEven g n ((s + t) * u) (c + (F64.nearestEven t).toNat) := by
  obtain ⟨f, hf⟩ := Int.eq_ofNat_of_zero_le (Int.floor_nonneg.mpr h0)
  have hle : (f : ℚ) ≤ t := by
    have := Int.floor_le t
    rwa [hf, Int.cast_natCast] at this
  have hlt : t < f + 1 := by
    have := Int.lt_floor_add_one t
    rwa [hf, Int.cast_natCast] at this
  have hfw : f + 1 ≤ w := by
    have : (f : ℚ) < w := hle.trans_lt htw
    exact_mod_cast this
  have hlow : g (c + f) = (s + f) * u := hgrid f (by omega)
  have hhigh : g (c + f + 1) = (s + (f + 1)) * u := by
    rw [Nat.add_assoc, hgrid (f + 1) hfw]
    push_cast
    rfl
  have hcn : c + f + 1 ≤ n := by omega
  have hhalf (he : 2 * ((s + t) * u) = (s + f) * u + (s + (f + 1)) * u) : t - f = 1 / 2 := by
    have hprod : (2 * t - (2 * f + 1)) * u = 0 := by linarith
    obtain h | h := mul_eq_zero.mp hprod <;> linarith
  have hlower (hmid : t - f ≤ 1 / 2) (htie : t - f = 1 / 2 → Even f) :
      NearestEven g n ((s + t) * u) (c + f) := by
    refine nearestEven_lower hg hcn ?_ ?_ fun he => ?_
    · rw [hlow]
      gcongr
    · rw [hlow, hhigh]
      nlinarith
    · rw [hlow, hhigh] at he
      exact heven.add (htie (hhalf he))
  have hupper (hmid : 1 / 2 ≤ t - f) (htie : t - f = 1 / 2 → Even (f + 1)) :
      NearestEven g n ((s + t) * u) (c + f + 1) := by
    refine nearestEven_upper hg hcn ?_ ?_ fun he => ?_
    · rw [hhigh]
      gcongr
    · rw [hlow, hhigh]
      nlinarith
    · rw [hlow, hhigh] at he
      exact heven.add (htie (hhalf he))
  unfold F64.nearestEven
  simp only [hf, Int.cast_natCast]
  split
  case isTrue h =>
    exact ⟨by omega, hlower h.le fun he => absurd he h.ne⟩
  case isFalse h =>
    split
    case isTrue h' =>
      exact ⟨by omega, hupper h'.le fun he => absurd he h'.ne'⟩
    case isFalse h' =>
      have he : t - f = 1 / 2 := le_antisymm (not_lt.mp h') (not_lt.mp h)
      split
      case isTrue heven' => exact ⟨by omega, hlower he.le fun _ => Nat.even_iff.mpr (by omega)⟩
      case isFalse hodd => exact ⟨by omega, hupper he.ge fun _ => Nat.even_iff.mpr (by omega)⟩

/-- The midpoints before `k` are below the value, and none of the others is. -/
def SplitsMidpoints (g : ℕ → ℚ) (n : ℕ) (a : ℚ) (k : ℕ) : Prop :=
  k ≤ n ∧ (∀ i < k, (g i + g (i + 1)) / 2 < a) ∧ ∀ i, k ≤ i → i < n → a ≤ (g i + g (i + 1)) / 2

lemma exists_splitsMidpoints (a : ℚ) : ∃ k, SplitsMidpoints g n a k := by
  have hex : ∃ i, n ≤ i ∨ a ≤ (g i + g (i + 1)) / 2 := ⟨n, .inl le_rfl⟩
  have hmin : ∀ i, n ≤ i ∨ a ≤ (g i + g (i + 1)) / 2 → Nat.find hex ≤ i := fun i => Nat.find_min' hex
  have hbelow : ∀ i < Nat.find hex, ¬(n ≤ i ∨ a ≤ (g i + g (i + 1)) / 2) := fun i => Nat.find_min hex
  have hspec := Nat.find_spec hex
  generalize Nat.find hex = k at hmin hbelow hspec
  refine ⟨k, hmin n (.inl le_rfl), fun i hi => not_le.mp (not_or.mp (hbelow i hi)).2, fun i hki hin => ?_⟩
  obtain hle | hle := hspec
  · omega
  · have hlow : g k ≤ g i := hg.monotoneOn (by simp; omega) (by simp; omega) hki
    have hhigh : g (k + 1) ≤ g (i + 1) := hg.monotoneOn (by simp; omega) (by simp; omega) (by omega)
    linarith

omit hg in
/-- They are counted. -/
lemma SplitsMidpoints.count_below (h : SplitsMidpoints g n a k) :
    (List.range n).countP (fun i => (g i + g (i + 1)) / 2 < a) = k := by
  obtain ⟨hkn, hbelow, habove⟩ := h
  obtain ⟨m, rfl⟩ : ∃ m, n = k + m := ⟨n - k, by omega⟩
  rw [List.range_add, List.countP_append, List.countP_eq_length.mpr, List.countP_eq_zero.mpr, List.length_range,
    Nat.add_zero]
  · intro i hi
    obtain ⟨j, hj, rfl⟩ := List.mem_map.mp hi
    rw [List.mem_range] at hj
    simpa using habove (k + j) (by omega) (by omega)
  · intro i hi
    exact decide_eq_true (hbelow i (List.mem_range.mp hi))

/-- Only the next midpoint can be at the value. -/
lemma SplitsMidpoints.count_tie (h : SplitsMidpoints g n a k) (p : ℕ → Prop) [DecidablePred p] :
    (List.range n).countP (fun i => a = (g i + g (i + 1)) / 2 ∧ p i) =
      if k < n ∧ a = (g k + g (k + 1)) / 2 ∧ p k then 1 else 0 := by
  obtain ⟨hkn, hbelow, habove⟩ := h
  have hother : ∀ i < n, i ≠ k → a ≠ (g i + g (i + 1)) / 2 := by
    intro i hin hne
    obtain hlt | hlt := lt_or_gt_of_ne hne
    · exact (hbelow i hlt).ne'
    · have hmid := habove k le_rfl (by omega)
      have hlow : g k < g i := hg (by simp; omega) (by simp; omega) hlt
      have hhigh : g (k + 1) < g (i + 1) := hg (by simp; omega) (by simp; omega) (by omega)
      linarith
  split_ifs with hk
  · have hiff : ∀ i ∈ List.range n, (a = (g i + g (i + 1)) / 2 ∧ p i) = (i = k) := by
      intro i hi
      rw [List.mem_range] at hi
      apply propext
      constructor
      · intro he
        by_contra hne
        exact hother i hi hne he.1
      · rintro rfl
        exact hk.2
    have hcongr : (List.range n).countP (fun i => a = (g i + g (i + 1)) / 2 ∧ p i) = (List.range n).count k := by
      rw [List.count_eq_countP]
      apply List.countP_congr
      intro i hi
      simp [hiff i hi]
    rw [hcongr]
    exact List.count_eq_one_of_mem List.nodup_range (List.mem_range.mpr hk.1)
  · rw [List.countP_eq_zero]
    intro i hi
    rw [List.mem_range] at hi
    simp only [decide_eq_true_eq]
    intro he
    obtain rfl : i = k := by
      by_contra hne
      exact hother i hi hne he.1
    exact hk ⟨hi, he⟩

/-- The midpoints below a value are counted, and the one at the value if the code above it is even. -/
theorem nearestEven_count (h0 : g 0 ≤ a) : NearestEven g n a
    ((List.range n).countP (fun i => (g i + g (i + 1)) / 2 < a) +
      (List.range n).countP fun i => a = (g i + g (i + 1)) / 2 ∧ i % 2 = 1) := by
  obtain ⟨k, hk⟩ := exists_splitsMidpoints hg (n := n) a
  rw [hk.count_below, hk.count_tie hg]
  obtain ⟨hkn, hbelow, habove⟩ := hk
  split_ifs with hup
  · obtain ⟨hlt, he, hodd⟩ := hup
    have hpoint : g k < g (k + 1) := hg hkn hlt (Nat.lt_succ_self k)
    exact nearestEven_upper hg hlt (by linarith) (by linarith) fun _ => Nat.even_iff.mpr (by omega)
  rw [Nat.add_zero]
  obtain hle | hlt := le_total (g k) a
  · obtain rfl | hlt := hkn.eq_or_lt
    · exact .last hg hle
    · have hmid := habove k le_rfl hlt
      refine nearestEven_lower hg hlt hle (by linarith) fun he => Nat.even_iff.mpr ?_
      by_contra hodd
      exact hup ⟨hlt, by linarith, by omega⟩
  · -- below its grid point the midpoint before decides
    obtain rfl | hpos := Nat.eq_zero_or_pos k
    · rw [le_antisymm hlt h0]
      exact .self hg (Nat.zero_le n)
    · obtain ⟨c, rfl⟩ : ∃ c, k = c + 1 := ⟨k - 1, by omega⟩
      have hmid := hbelow c (by omega)
      exact nearestEven_upper hg hkn hlt (by linarith) fun he => absurd he (by linarith)

end
end Lib
