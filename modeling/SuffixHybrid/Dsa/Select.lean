import Mathlib.Algebra.Order.Ring.Int
import Mathlib.Data.Nat.Cast.Order.Ring
import SuffixHybrid.Dsa.Candidates

/-!
# The selected positions

The fused ranking of a row selects the largest of the positions that lie in its candidate blocks, and so does
the dense one with what it leaves finite: a slot and its position are on the same side of every bound.
-/

namespace SuffixHybrid.Dsa
open Lib

variable {α : Type} {q : Batch α} {r : ℕ}

namespace Batch

/-- The number of valid candidates of a row. -/
def valid (q : Batch α) (r : ℕ) : ℕ := min ((q.hi r + q.bsz - 1) / q.bsz) q.cand.width

/-- What a row of a batch is promised: distinct candidates of the row's blocks, valid ones first and -1 behind;
distinct logits. -/
structure Proper (q : Batch α) (r : ℕ) : Prop where
  row : r < q.rows
  nonneg : 0 ≤ q.cl r
  bsz_pos : 0 < q.bsz
  block : ∀ i < q.valid r, 0 ≤ q.cand.ids r i ∧ q.cand.ids r i < ((q.hi r + q.bsz - 1) / q.bsz : ℕ)
  inj : ∀ i < q.valid r, ∀ j < q.valid r, q.cand.ids r i = q.cand.ids r j → i = j
  pad : ∀ i, q.valid r ≤ i → i < q.cand.width → q.cand.ids r i = -1
  distinct : ∀ p < q.hi r, ∀ p' < q.hi r, q.logit r p = q.logit r p' → p = p'

/-- The positions below the length in candidate blocks. -/
def candidates (q : Batch α) (r : ℕ) : Finset ℕ :=
  (Finset.range (q.hi r)).filter fun p => ∃ i < q.cand.width, q.cand.ids r i = (p / q.bsz : ℕ)

lemma Proper.hi_eq (h : q.Proper r) : (q.hi r : ℤ) = q.cl r := Int.toNat_of_nonneg h.nonneg

lemma Proper.candLens_eq (h : q.Proper r) : candLens (q.cl r) q.cand.width q.bsz = q.nslot r := by
  have hb := h.bsz_pos
  have e : q.cl r + q.bsz - 1 = ((q.hi r + q.bsz - 1 : ℕ) : ℤ) := by
    have := h.hi_eq
    omega
  rw [candLens, e, nslot, Nat.cast_mul, Nat.cast_min, Int.natCast_div]

/-- The bound of the ranking is behind every slot of the row. -/
lemma Proper.candLens_le (h : q.Proper r) {maxSeqLen : ℤ} (hm : q.cl r ≤ maxSeqLen) :
    candLens (q.cl r) q.cand.width q.bsz ≤
      min ((q.cand.width * q.bsz : ℕ) : ℤ) (-(-maxSeqLen / q.bsz) * q.bsz) := by
  have hb : (0 : ℤ) < q.bsz := Int.natCast_pos.mpr h.bsz_pos
  have hle : (q.cl r + q.bsz - 1) / q.bsz ≤ -(-maxSeqLen / q.bsz) := by
    have h1 := Int.ediv_mul_le (q.cl r + q.bsz - 1) hb.ne'
    have h2 := Int.ediv_mul_le (-maxSeqLen) hb.ne'
    by_contra hlt
    have h3 : (1 - -maxSeqLen / (q.bsz : ℤ)) * q.bsz ≤ (q.cl r + q.bsz - 1) / q.bsz * q.bsz :=
      Int.mul_le_mul_of_nonneg_right (by omega) hb.le
    rw [Int.sub_mul, Int.one_mul] at h3
    omega
  refine Int.le_min.mpr ⟨?_, ?_⟩
  · rw [Nat.cast_mul]
    exact Int.mul_le_mul_of_nonneg_right (Int.min_le_right _ _) hb.le
  · exact Int.mul_le_mul_of_nonneg_right ((Int.min_le_left _ _).trans hle) hb.le

/-! ## Slots and positions -/

/-- A slot of a candidate block: its position, and its block. -/
lemma Proper.pos_eq (h : q.Proper r) {j : ℕ} (hj : j < q.nslot r) :
    ∃ b : ℕ, q.cand.ids r (j / q.bsz) = b ∧ q.pos r j = (b * q.bsz + j % q.bsz : ℕ) ∧
      (b * q.bsz + j % q.bsz) / q.bsz = b := by
  have hdiv : j / q.bsz < q.valid r := (Nat.div_lt_iff_lt_mul h.bsz_pos).mpr hj
  obtain ⟨b, hb⟩ := Int.eq_ofNat_of_zero_le (h.block _ hdiv).1
  refine ⟨b, hb, ?_, ?_⟩
  · rw [pos, hb, Nat.cast_add, Nat.cast_mul]
  · rw [Nat.mul_comm, Nat.mul_add_div h.bsz_pos, Nat.div_eq_of_lt (Nat.mod_lt _ h.bsz_pos), Nat.add_zero]

/-- Different slots have different positions. -/
lemma Proper.pos_inj (h : q.Proper r) : Set.InjOn (fun j => (q.pos r j).toNat) (Finset.range (q.nslot r)) := by
  intro j hj j' hj' e
  rw [Finset.coe_range, Set.mem_Iio] at hj hj'
  obtain ⟨b, hb, hpos, hdiv⟩ := h.pos_eq hj
  obtain ⟨b', hb', hpos', hdiv'⟩ := h.pos_eq hj'
  dsimp only at e
  rw [hpos, hpos', Int.toNat_natCast, Int.toNat_natCast] at e
  have ebb : b = b' := by rw [← hdiv, ← hdiv', e]
  subst ebb
  have hlt : ∀ {j}, j < q.nslot r → j / q.bsz < q.valid r := (Nat.div_lt_iff_lt_mul h.bsz_pos).mpr
  have ediv := h.inj _ (hlt hj) _ (hlt hj') (hb.trans hb'.symm)
  rw [← Nat.div_add_mod j q.bsz, ← Nat.div_add_mod j' q.bsz, ediv, Nat.add_left_cancel e]

/-- The positions of the slots that hold a candidate are the candidates. -/
lemma Proper.image_pos (h : q.Proper r) :
    ((Finset.range (q.nslot r)).filter (q.Ok r)).image (fun j => (q.pos r j).toNat) = q.candidates r := by
  ext p
  simp only [Finset.mem_image, Finset.mem_filter, Finset.mem_range, candidates]
  constructor
  · rintro ⟨j, ⟨hj, _, hlt⟩, rfl⟩
    obtain ⟨b, hb, hpos, hdiv⟩ := h.pos_eq hj
    rw [hpos] at hlt ⊢
    rw [Int.toNat_natCast]
    refine ⟨by omega, j / q.bsz, ?_, hb.trans (by rw [hdiv])⟩
    exact Nat.lt_of_lt_of_le ((Nat.div_lt_iff_lt_mul h.bsz_pos).mpr hj) (Nat.min_le_right _ _)
  · rintro ⟨hp, i, hi, hid⟩
    have hvalid : i < q.valid r := by
      by_contra hn
      have hneg := h.pad i (Nat.not_lt.mp hn) hi
      rw [hid] at hneg
      have := Int.natCast_nonneg (p / q.bsz)
      omega
    have hmod := Nat.mod_lt p h.bsz_pos
    have hj : i * q.bsz + p % q.bsz < q.nslot r :=
      calc i * q.bsz + p % q.bsz < (i + 1) * q.bsz := by rw [Nat.succ_mul]; omega
        _ ≤ q.valid r * q.bsz := Nat.mul_le_mul_right _ hvalid
    have hdiv : (i * q.bsz + p % q.bsz) / q.bsz = i := by
      rw [Nat.mul_comm, Nat.mul_add_div h.bsz_pos, Nat.div_eq_of_lt hmod, Nat.add_zero]
    have hmod' : (i * q.bsz + p % q.bsz) % q.bsz = p % q.bsz := by rw [Nat.mul_add_mod', Nat.mod_mod]
    have hpos : q.pos r (i * q.bsz + p % q.bsz) = p := by
      rw [pos, hdiv, hmod', hid, ← Nat.cast_mul, ← Nat.cast_add, Nat.mul_comm, Nat.div_add_mod]
    refine ⟨i * q.bsz + p % q.bsz, ⟨hj, ?_, ?_⟩, ?_⟩
    · rw [hdiv, hid]
      exact Int.natCast_nonneg _
    · rw [hpos]
      exact Int.ofNat_lt.mpr hp
    · rw [hpos, Int.toNat_natCast]

lemma pos_nonneg (q : Batch α) {j : ℕ} (h : q.Ok r j) : 0 ≤ q.pos r j :=
  Int.add_nonneg (Int.mul_nonneg h.1 (Int.natCast_nonneg _)) (Int.natCast_nonneg _)

/-- Both remappings give the position of a slot that holds a candidate, and -1 otherwise. -/
lemma Proper.remapTwin_eq (h : q.Proper r) (j : ℕ) :
    remapTwin (q.cand.ids r) (q.cl r) q.bsz j = if q.Ok r j then q.pos r j else -1 := by
  have hj : (0 : ℤ) ≤ j := Int.natCast_nonneg j
  unfold remapTwin
  dsimp only
  rw [max_eq_left hj, ← Int.natCast_div, Int.toNat_natCast, ← Int.natCast_mod]
  refine if_congr ?_ rfl rfl
  rw [Ok, pos, h.hi_eq, and_iff_right hj]

lemma remapKernel_eq_twin (cand : ℕ → ℤ) (cl : ℤ) (bsz : ℕ) (s : ℤ) :
    remapKernel cand cl bsz s = remapTwin cand cl bsz s := by
  unfold remapKernel remapTwin
  dsimp only
  by_cases hs : 0 ≤ s
  · rw [if_pos hs]
  · rw [if_neg fun h => hs h.1, if_neg fun h => hs h.1]

lemma remapTwin_neg (cand : ℕ → ℤ) (cl : ℤ) (bsz : ℕ) {s : ℤ} (hs : s < 0) : remapTwin cand cl bsz s = -1 :=
  if_neg fun h => absurd h.1 (Int.not_le.mpr hs)

lemma candRemap_eq (cuda : Bool) (cand : ℕ → ℤ) (cl : ℤ) (bsz : ℕ) (idx : List ℤ) :
    candRemap cuda cand cl bsz idx = idx.map (remapTwin cand cl bsz) := by
  rw [candRemap]
  cases cuda with
  | false => rfl
  | true => exact List.map_congr_left fun s _ => remapKernel_eq_twin cand cl bsz s

lemma Proper.picks_remap (h : q.Proper r) (idx : List ℤ) :
    picks (idx.map (remapTwin (q.cand.ids r) (q.cl r) q.bsz)) =
      ((picks idx).filter (q.Ok r ·)).map fun j => (q.pos r j).toNat := by
  induction idx with
  | nil => rfl
  | cons s idx ih =>
    rw [List.map_cons]
    by_cases hs : 0 ≤ s
    · obtain ⟨j, rfl⟩ := Int.eq_ofNat_of_zero_le hs
      rw [picks_cons_nonneg hs, Int.toNat_natCast, h.remapTwin_eq]
      by_cases hok : q.Ok r j
      · rw [if_pos hok, picks_cons_nonneg (q.pos_nonneg hok), List.filter_cons, if_pos (decide_eq_true hok),
          List.map_cons, ih]
      · rw [if_neg hok, picks_cons_neg (by decide), List.filter_cons,
          if_neg (by rwa [decide_eq_true_eq]), ih]
    · rw [remapTwin_neg _ _ _ (Int.not_le.mp hs), picks_cons_neg (by decide),
        picks_cons_neg (Int.not_le.mp hs), ih]

/-! ## Selection -/

variable [LinearOrder α] {V : Vllm α} {k : ℕ} {maxSeqLen : ℤ}

/-- The fused ranking selects the largest candidates. -/
theorem Proper.rank_selects (h : q.Proper r) (hm : q.cl r ≤ maxSeqLen) (cuda : Bool) :
    Selects k (q.candidates r) (q.logit r) (q.rank V cuda k maxSeqLen r) := by
  have hlen : (candLens (q.cl r) q.cand.width q.bsz).toNat = q.nslot r := by
    rw [h.candLens_eq, Int.toNat_natCast]
  obtain ⟨hk, hminus, htop⟩ := V.topk_spec (fun j => q.candLogits (r, j)) _ k _ (h.candLens_le hm)
  rw [hlen] at htop
  unfold rank
  dsimp only
  rw [candRemap_eq]
  refine ⟨by rw [List.length_map, hk], fun i hi => ?_, ?_⟩
  · obtain ⟨s, hs, rfl⟩ := List.mem_map.mp hi
    by_cases hs0 : 0 ≤ s
    · obtain ⟨j, rfl⟩ := Int.eq_ofNat_of_zero_le hs0
      rw [h.remapTwin_eq]
      split
      · rename_i hok
        exact Int.le_trans (by decide) (q.pos_nonneg hok)
      · exact Int.le_refl _
    · rw [remapTwin_neg _ _ _ (Int.not_le.mp hs0)]
  · rw [h.picks_remap, ← h.image_pos]
    -- the slots without a candidate are `-inf`, below all others
    have hval : ∀ j ∈ Finset.range (q.nslot r), q.candLogits (r, j) = q.slot r j := fun j hj =>
      candLogits_eq h.row (Finset.mem_range.mp hj)
    have hslots : Top k (Finset.range (q.nslot r)) (q.slot r) _ := htop.congr fun i hi j hj hle => by
      rwa [hval i hi, hval j hj] at hle
    have hfin := hslots.filter (p := q.Ok r) fun i _ hi j _ hj => by
      rw [slot, slot, if_pos hi, if_neg hj]
      exact WithBot.bot_lt_coe _
    have hcand : Top k _ (fun p => (q.logit r p : WithBot α)) _ :=
      hfin.map (h.pos_inj.mono (Finset.coe_subset.mpr (Finset.filter_subset _ _)))
        fun j hj => (if_pos (Finset.mem_filter.mp hj).2).symm
    exact hcand.congr fun i _ j _ hle => WithBot.coe_le_coe.mp hle

/-- A position of the row that the mask leaves. -/
lemma mask_eq {dense : ℕ → WithBot α} (hd : ∀ p < q.hi r, dense p = q.logit r p) (h : q.Proper r) {p : ℕ}
    (hp : p < q.hi r) : V.mask dense (q.cl r) (q.cand.ids r) q.cand.width q.bsz p =
      if p ∈ q.candidates r then (q.logit r p : WithBot α) else ⊥ := by
  rw [V.mask_spec _ _ _ _ _ _ (by rw [← h.hi_eq]; exact Int.ofNat_lt.mpr hp), hd p hp]
  refine if_congr ?_ rfl rfl
  rw [candidates, Finset.mem_filter, Finset.mem_range, and_iff_right hp]

/-- The dense ranking selects the largest candidates too, before what the mask has removed. -/
theorem Proper.rankDense_selects (h : q.Proper r) (hm : q.cl r ≤ maxSeqLen) {dense : ℕ → WithBot α}
    (hd : ∀ p < q.hi r, dense p = q.logit r p) :
    Top k (q.candidates r) (q.logit r) ((picks (q.rankDense V dense k maxSeqLen r)).filter fun p =>
      V.mask dense (q.cl r) (q.cand.ids r) q.cand.width q.bsz p ≠ ⊥) := by
  obtain ⟨_, _, htop⟩ := V.topk_spec (V.mask dense (q.cl r) (q.cand.ids r) q.cand.width q.bsz) _ k _ hm
  have hval : ∀ p ∈ Finset.range (q.cl r).toNat, V.mask dense (q.cl r) (q.cand.ids r) q.cand.width q.bsz p =
      if p ∈ q.candidates r then (q.logit r p : WithBot α) else ⊥ :=
    fun p hp => mask_eq hd h (Finset.mem_range.mp hp)
  have hfin := htop.filter (p := fun p => V.mask dense (q.cl r) (q.cand.ids r) q.cand.width q.bsz p ≠ ⊥)
    fun i _ hi j _ hj => by
      rw [not_not.mp hj]
      exact bot_lt_iff_ne_bot.mpr hi
  have hset : (Finset.range (q.cl r).toNat).filter
      (fun p => V.mask dense (q.cl r) (q.cand.ids r) q.cand.width q.bsz p ≠ ⊥) = q.candidates r := by
    ext p
    rw [Finset.mem_filter]
    constructor
    · rintro ⟨hp, hne⟩
      by_contra hn
      rw [hval p hp, if_neg hn] at hne
      exact hne rfl
    · intro hp
      have hlt := (Finset.mem_filter.mp hp).1
      refine ⟨hlt, ?_⟩
      rw [hval p hlt, if_pos hp]
      exact WithBot.coe_ne_bot
  rw [hset] at hfin
  refine hfin.congr fun i hi j hj hle => ?_
  rw [hval i (Finset.mem_filter.mp hi).1, hval j (Finset.mem_filter.mp hj).1, if_pos hi, if_pos hj] at hle
  exact WithBot.coe_le_coe.mp hle

/-- Both select the same positions. -/
theorem Proper.rank_perm (h : q.Proper r) (hm : q.cl r ≤ maxSeqLen) (cuda : Bool) {dense : ℕ → WithBot α}
    (hd : ∀ p < q.hi r, dense p = q.logit r p) :
    (picks (q.rank V cuda k maxSeqLen r)).Perm ((picks (q.rankDense V dense k maxSeqLen r)).filter fun p =>
      V.mask dense (q.cl r) (q.cand.ids r) q.cand.width q.bsz p ≠ ⊥) := by
  refine (h.rank_selects hm cuda).top.perm (h.rankDense_selects hm hd) fun p hp p' hp' e => ?_
  have hlt : ∀ {p}, p ∈ (q.candidates r : Set ℕ) → p < q.hi r := fun hp =>
    Finset.mem_range.mp (Finset.mem_filter.mp hp).1
  exact h.distinct p (hlt hp) p' (hlt hp') e

end Batch

end SuffixHybrid.Dsa
