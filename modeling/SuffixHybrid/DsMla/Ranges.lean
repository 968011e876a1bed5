import SuffixHybrid.DsMla.Plan

/-!
# The ranges and the indices of a ds-MLA launch

The kernels compute in words. Each index is written over its arithmetic `w`: `u32` is what the kernel
computes and `id` the exact value. An index in words is the word of the exact index (`words_eq`), so it is
exact as long as the exact index is below 2^32. `check_launch` bounds the products. It does not bound the end
of the last split, nor the row that the kernel forms for a head past `hq` (`ranges_iff`).
-/

namespace SuffixHybrid.DsMla
open Lib

/-- The arguments and the grids of a launch. The grid has no CTA past the tokens. -/
structure Args where
  topkStride : ℕ
  topkLen : ℕ
  cPerSplit : ℕ
  ns : ℕ
  qStride : ℕ
  hq : ℕ
  hqt : ℕ
  gridX : ℕ
  gridY : ℕ
  mergeX : ℕ
deriving DecidableEq

/-- The launch of a split count; `w` is the cast. -/
def launchArgs (w : ℕ → ℕ) (tokens hq cap ns : ℕ) : Args where
  topkStride := w cap
  topkLen := w cap
  cPerSplit := w (splitRows cap ns)
  ns := w ns
  qStride := w (hq * (DIM + PE_DIM))
  hq := w hq
  hqt := w (cdiv hq 8)
  gridX := w (tokens * cdiv hq 8)
  gridY := w ns
  mergeX := w (tokens * hq)

/-- `nvfp4_ds_mla_decode_cuda`, from the checks of the split count on. -/
def decode (w : ℕ → ℕ) (tokens hq cap ns : ℕ) : Except String Args :=
  match checkLaunch tokens hq cap ns with
  | .error text => .error text
  | .ok () =>
    if cdiv cap (splitRows cap ns) ≠ ns then
      .error s!"NS={ns} is not a plan split count for capacity {cap}"
    else .ok (launchArgs w tokens hq cap ns)

namespace Args
variable (w : ℕ → ℕ) (a : Args)

/-- The token of a CTA. -/
def t (r : ℕ) : ℕ := r / a.hqt

/-- The first head of the tile of a CTA. -/
def h0 (r : ℕ) : ℕ := w (r % a.hqt * 8)

/-- The first row of a split. -/
def c0 (s : ℕ) : ℕ := w (s * a.cPerSplit)

/-- The end of a split, before it is cut to the capacity. -/
def splitEnd (s : ℕ) : ℕ := w (a.c0 w s + a.cPerSplit)

/-- The end of a split. -/
def c1 (s : ℕ) : ℕ := if a.splitEnd w s > a.topkLen then a.topkLen else a.splitEnd w s

/-- The first rows of the tiles that the ring of a split loads. -/
inductive Tile (s : ℕ) : ℕ → Prop where
  | first : a.c0 w s < a.c1 w s → Tile s (a.c0 w s)
  | next {j} : Tile s j → w (j + TN) < a.c1 w s → Tile s (w (j + TN))

/-- An element of `topk_indices`. -/
def topkIndex (r c : ℕ) : ℕ := w (w (a.t r * a.topkStride) + c)

/-- The first element of the query row that warp `i` stages. -/
def qIndex (r i : ℕ) : ℕ := w (w (a.t r * a.qStride) + w (w (a.h0 w r + i) * (DIM + PE_DIM)))

/-- An element of `lse_part`, and the row of `o_part`. -/
def outRow (r i s : ℕ) : ℕ := w (w (w (w (w (a.t r * a.hq) + a.h0 w r) + i) * a.ns) + s)

/-- The elements of `o_part` that warp `v` stores. -/
def oIndex (r i s v t4 : ℕ) : ℕ := w (w (w (a.outRow w r i s * DIM) + 64 * v) + 16 * t4)

/-- An element of `lse_part`, in the merge. -/
def mergeRow (r s : ℕ) : ℕ := w (w (r * a.ns) + s)

/-- An element of `o_part`, in the merge. -/
def mergeIndex (r s wd : ℕ) : ℕ := w (w (a.mergeRow w r s * DIM) + 2 * wd)

end Args

/-- Every sum and index that the kernels form in words is the exact one. -/
structure InRange (a b : Args) : Prop where
  ends : ∀ s < b.gridY, a.splitEnd u32 s = b.splitEnd id s
  ring : ∀ s < b.gridY, ∀ j, a.Tile u32 s j → u32 (j + TN) = j + TN
  topk : ∀ r < b.gridX, ∀ s < b.gridY, ∀ c < a.c1 u32 s, a.topkIndex u32 r c = b.topkIndex id r c
  q : ∀ r < b.gridX, ∀ s < b.gridY, a.c0 u32 s < a.c1 u32 s → ∀ i < 8, a.qIndex u32 r i = b.qIndex id r i
  lse : ∀ r < b.gridX, ∀ s < b.gridY, ∀ i < 8, u32 (a.h0 u32 r + i) < a.hq →
    a.outRow u32 r i s = b.outRow id r i s
  oPart : ∀ r < b.gridX, ∀ s < b.gridY, ∀ i < 8, u32 (a.h0 u32 r + i) < a.hq → ∀ v < 8, ∀ t4 < 4,
    a.oIndex u32 r i s v t4 = b.oIndex id r i s v t4
  merge : ∀ r < b.mergeX, ∀ s < b.gridY, a.mergeRow u32 r s = b.mergeRow id r s ∧
    ∀ wd < 256, a.mergeIndex u32 r s wd = b.mergeIndex id r s wd

/-- The splits of a launch partition the capacity. -/
def Partition (capacity : ℕ) (a : Args) : Prop :=
  ExactCover (fun s o => s < a.gridY ∧ a.c0 u32 s ≤ o ∧ o < a.c1 u32 s) (· < capacity)

/-! ## Words and exact values -/

section
variable {tokens hq cap ns : ℕ}

lemma splitEnd_words (s : ℕ) : (launchArgs u32 tokens hq cap ns).splitEnd u32 s =
    u32 ((launchArgs id tokens hq cap ns).splitEnd id s) := by
  simp [Args.splitEnd, Args.c0, launchArgs]

lemma mergeRow_words (r s : ℕ) : (launchArgs u32 tokens hq cap ns).mergeRow u32 r s =
    u32 ((launchArgs id tokens hq cap ns).mergeRow id r s) := by
  simp [Args.mergeRow, launchArgs]

lemma mergeIndex_words (r s wd : ℕ) : (launchArgs u32 tokens hq cap ns).mergeIndex u32 r s wd =
    u32 ((launchArgs id tokens hq cap ns).mergeIndex id r s wd) := by
  simp [Args.mergeIndex, mergeRow_words]

variable (hhqt : cdiv hq 8 < 2 ^ 32)
include hhqt

lemma topkIndex_words (r c : ℕ) : (launchArgs u32 tokens hq cap ns).topkIndex u32 r c =
    u32 ((launchArgs id tokens hq cap ns).topkIndex id r c) := by
  simp [Args.topkIndex, Args.t, launchArgs, u32_of_lt hhqt]

lemma qIndex_words (r i : ℕ) : (launchArgs u32 tokens hq cap ns).qIndex u32 r i =
    u32 ((launchArgs id tokens hq cap ns).qIndex id r i) := by
  simp [Args.qIndex, Args.t, Args.h0, launchArgs, u32_of_lt hhqt]

lemma outRow_words (r i s : ℕ) : (launchArgs u32 tokens hq cap ns).outRow u32 r i s =
    u32 ((launchArgs id tokens hq cap ns).outRow id r i s) := by
  simp [Args.outRow, Args.t, Args.h0, launchArgs, u32_of_lt hhqt]

lemma oIndex_words (r i s v t4 : ℕ) : (launchArgs u32 tokens hq cap ns).oIndex u32 r i s v t4 =
    u32 ((launchArgs id tokens hq cap ns).oIndex id r i s v t4) := by
  simp [Args.oIndex, outRow_words hhqt]

end

/-! ## The bounds of an accepted plan -/

/-- The row of a head, counted in heads, is below `tokens * hq`. -/
lemma head_lt {tokens hq r i : ℕ} (hr : r < tokens * cdiv hq 8) (hi : r % cdiv hq 8 * 8 + i < hq) :
    r / cdiv hq 8 * hq + r % cdiv hq 8 * 8 + i < tokens * hq := by
  have ht : r / cdiv hq 8 < tokens := Nat.div_lt_of_lt_mul (by rwa [Nat.mul_comm])
  have := place_lt ht hi
  omega

namespace Accepted
variable {tokens hq capacity numSms c2 : ℕ} {p : DsMlaPlan}

/-- The host op accepts the split count of a plan. -/
lemma decode_ok (h : Accepted tokens hq capacity numSms c2 p) (w : ℕ → ℕ) :
    decode w tokens hq capacity p.ns = .ok (launchArgs w tokens hq capacity p.ns) := by
  have hcheck : checkLaunch tokens hq capacity p.ns = .ok () :=
    checkLaunch_ok_iff.mpr ⟨h.grid.1, h.grid.2, h.oPart, h.q, h.topk⟩
  have hcount : cdiv capacity (splitRows capacity p.ns) = p.ns := by
    rw [h.consistent.rederived.2]
    exact h.consistent.rederived.1
  simp only [decode, hcheck, hcount, ne_eq, not_true_eq_false, if_false]

lemma cps (h : Accepted tokens hq capacity numSms c2 p) : splitRows capacity p.ns = p.cPerSplit :=
  h.consistent.rederived.2

/-- A split is a positive number of tiles. -/
lemma cps_tiles (h : Accepted tokens hq capacity numSms c2 p) : ∃ k, 0 < k ∧ p.cPerSplit = k * TN := by
  have ht : 0 < cdiv capacity TN := (cdiv_pos_iff (by decide)).mpr h.positive.2.2.2
  have hns := h.consistent.mem.1
  refine ⟨cdiv (cdiv capacity TN) p.ns, (cdiv_pos_iff hns).mpr ht, ?_⟩
  rw [← h.cps, splitRows, usize_of_lt h.productsFit.split, max_eq_left hns, Nat.mul_comm]

lemma heads_lt (h : Accepted tokens hq capacity numSms c2 p) :
    tokens * hq < 2 ^ 31 ∧ hq < 2 ^ 31 ∧ cdiv hq 8 < 2 ^ 31 ∧ tokens * cdiv hq 8 < 2 ^ 31 := by
  have hgrid := h.grid.1
  have hle : hq ≤ tokens * hq := Nat.le_mul_of_pos_left hq h.positive.1
  have hhqt := cdiv_le_self hq (show 0 < 8 by decide)
  have htile := hqt_le tokens hq
  omega

/-- The guard of the stores tests the head itself. -/
lemma guard (h : Accepted tokens hq capacity numSms c2 p) {r i : ℕ} (hi : i < 8)
    (hguard : u32 ((launchArgs u32 tokens hq capacity p.ns).h0 u32 r + i) <
      (launchArgs u32 tokens hq capacity p.ns).hq) : r % cdiv hq 8 * 8 + i < hq := by
  obtain ⟨-, hhq, hhqt, -⟩ := h.heads_lt
  have hlt : r % cdiv hq 8 < cdiv hq 8 :=
    Nat.mod_lt r ((cdiv_pos_iff (by decide)).mpr h.positive.2.1)
  have hhead : r % cdiv hq 8 * 8 + i < 2 ^ 32 := by
    have hround : 8 * (cdiv hq 8 - 1) < hq := (lt_cdiv_iff (by decide)).mp (by omega)
    omega
  have hhqt32 : u32 (cdiv hq 8) = cdiv hq 8 := u32_of_lt (by omega)
  have hhq32 : u32 hq = hq := u32_of_lt (by omega)
  simp only [Args.h0, launchArgs, hhqt32, hhq32, u32_add_left, u32_of_lt hhead] at hguard
  exact hguard

/-- The row of `o_part` that a CTA stores. -/
lemma outRow_lt {r i s : ℕ} (hr : r < tokens * cdiv hq 8) (hi : r % cdiv hq 8 * 8 + i < hq) (hs : s < p.ns) :
    (launchArgs id tokens hq capacity p.ns).outRow id r i s < tokens * hq * p.ns :=
  place_lt (head_lt hr hi) hs

/-- An element of a row of `o_part`. -/
lemma element_lt (h : Accepted tokens hq capacity numSms c2 p) {row d : ℕ} (hrow : row < tokens * hq * p.ns)
    (hd : d < DIM) : row * DIM + d < 2 ^ 32 := by
  have hlt := place_lt hrow hd
  have := h.oPart
  omega

lemma row_lt (h : Accepted tokens hq capacity numSms c2 p) {row : ℕ} (hrow : row < tokens * hq * p.ns) :
    row < 2 ^ 32 := by
  have := h.element_lt hrow (show 0 < DIM by decide)
  rw [DIM] at this
  omega

/-- The last head that a token's CTAs stage is the last of its last tile. -/
lemma qIndex_le {r i : ℕ} (hr : r < tokens * cdiv hq 8) (hi : i < 8) :
    (launchArgs id tokens hq capacity p.ns).qIndex id r i ≤
      ((tokens - 1) * hq + 8 * cdiv hq 8 - 1) * (DIM + PE_DIM) := by
  have hpos : 0 < cdiv hq 8 := Nat.pos_of_ne_zero fun h0 => by simp [h0] at hr
  have ht : r / cdiv hq 8 ≤ tokens - 1 := by
    have := Nat.div_lt_of_lt_mul (show r < cdiv hq 8 * tokens by rwa [Nat.mul_comm])
    omega
  have hh : r % cdiv hq 8 < cdiv hq 8 := Nat.mod_lt r hpos
  have hrow : r / cdiv hq 8 * hq ≤ (tokens - 1) * hq := Nat.mul_le_mul_right hq ht
  calc (launchArgs id tokens hq capacity p.ns).qIndex id r i
      = (r / cdiv hq 8 * hq + (r % cdiv hq 8 * 8 + i)) * (DIM + PE_DIM) := by
        rw [Nat.add_mul, Nat.mul_assoc]
        rfl
    _ ≤ ((tokens - 1) * hq + 8 * cdiv hq 8 - 1) * (DIM + PE_DIM) :=
        Nat.mul_le_mul_right _ (by omega)

/-- The last CTA of the grid stages that head. -/
lemma qIndex_last (h : Accepted tokens hq capacity numSms c2 p) :
    ∃ r < tokens * cdiv hq 8, (launchArgs id tokens hq capacity p.ns).qIndex id r 7 =
      ((tokens - 1) * hq + 8 * cdiv hq 8 - 1) * (DIM + PE_DIM) := by
  have htok := h.positive.1
  have hpos : 0 < cdiv hq 8 := (cdiv_pos_iff (by decide)).mpr h.positive.2.1
  have hlast : cdiv hq 8 - 1 < cdiv hq 8 := Nat.sub_lt hpos Nat.one_pos
  refine ⟨(tokens - 1) * cdiv hq 8 + (cdiv hq 8 - 1), place_lt (by omega) hlast, ?_⟩
  have hdiv : ((tokens - 1) * cdiv hq 8 + (cdiv hq 8 - 1)) / cdiv hq 8 = tokens - 1 := by
    rw [Nat.mul_comm, Nat.mul_add_div hpos, Nat.div_eq_of_lt hlast, Nat.add_zero]
  have hmod : ((tokens - 1) * cdiv hq 8 + (cdiv hq 8 - 1)) % cdiv hq 8 = cdiv hq 8 - 1 :=
    Nat.mul_add_mod_of_lt hlast
  have hsum : (tokens - 1) * hq + ((cdiv hq 8 - 1) * 8 + 7) = (tokens - 1) * hq + 8 * cdiv hq 8 - 1 := by
    omega
  rw [← hsum, Nat.add_mul, Nat.mul_assoc]
  simp only [Args.qIndex, Args.t, Args.h0, launchArgs, id_eq, hdiv, hmod]

/-! ## The splits that do not wrap -/

lemma split_lt (hend : p.ns * p.cPerSplit < 2 ^ 32) {s : ℕ} (hs : s < p.ns) : s * p.cPerSplit + p.cPerSplit < 2 ^ 32 := by
  rw [← Nat.succ_mul]
  exact (Nat.mul_le_mul_right _ hs).trans_lt hend

variable (h : Accepted tokens hq capacity numSms c2 p) (hend : p.ns * p.cPerSplit < 2 ^ 32)
include h hend

lemma c0_eq {s : ℕ} (hs : s < p.ns) :
    (launchArgs u32 tokens hq capacity p.ns).c0 u32 s = s * p.cPerSplit := by
  have hlt := split_lt hend hs
  simp only [Args.c0, launchArgs, h.cps, u32_mul_right]
  exact u32_of_lt (by omega)

lemma c1_eq {s : ℕ} (hs : s < p.ns) :
    (launchArgs u32 tokens hq capacity p.ns).c1 u32 s = min (s * p.cPerSplit + p.cPerSplit) capacity := by
  have hsplit : (launchArgs u32 tokens hq capacity p.ns).splitEnd u32 s =
      s * p.cPerSplit + p.cPerSplit := by
    rw [splitEnd_words]
    simp only [Args.splitEnd, Args.c0, launchArgs, id_eq, h.cps]
    exact u32_of_lt (split_lt hend hs)
  have hcap : (launchArgs u32 tokens hq capacity p.ns).topkLen = capacity := u32_of_lt h.capacity_lt
  rw [Args.c1, hsplit, hcap, Nat.min_comm, Nat.min_def]
  by_cases hle : capacity ≤ s * p.cPerSplit + p.cPerSplit
  · by_cases heq : s * p.cPerSplit + p.cPerSplit > capacity
    · rw [if_pos heq, if_pos hle]
    · rw [if_neg heq, if_pos hle]
      omega
  · rw [if_neg hle, if_neg (by omega)]

/-- A tile of the ring ends within the split, before that is cut to the capacity. -/
lemma tile_le {s j : ℕ} (hs : s < p.ns) (hj : (launchArgs u32 tokens hq capacity p.ns).Tile u32 s j) :
    j + TN ≤ s * p.cPerSplit + p.cPerSplit := by
  obtain ⟨k, hk, hcps⟩ := h.cps_tiles
  have hlt := split_lt hend hs
  -- the ring steps in whole tiles, and a split is a whole number of them
  suffices ∃ i < k, j = s * p.cPerSplit + i * TN by
    obtain ⟨i, hi, rfl⟩ := this
    have hle : i * TN + TN ≤ k * TN := by
      rw [← Nat.succ_mul]
      exact Nat.mul_le_mul_right TN hi
    omega
  induction hj with
  | first hne => exact ⟨0, hk, by rw [h.c0_eq hend hs, Nat.zero_mul, Nat.add_zero]⟩
  | @next j hj hnext ih =>
    obtain ⟨i, hi, rfl⟩ := ih
    have hle : i * TN + TN ≤ k * TN := by
      rw [← Nat.succ_mul]
      exact Nat.mul_le_mul_right TN hi
    rw [u32_of_lt (by omega)] at hnext ⊢
    rw [h.c1_eq hend hs, Nat.lt_min] at hnext
    refine ⟨i + 1, ?_, by rw [Nat.succ_mul, Nat.add_assoc]⟩
    have hlt' : i * TN + TN < k * TN := by omega
    rw [← Nat.succ_mul] at hlt'
    exact Nat.lt_of_mul_lt_mul_right hlt'

lemma partition : Partition capacity (launchArgs u32 tokens hq capacity p.ns) := by
  have hcps : 0 < p.cPerSplit := by
    obtain ⟨k, hk, he⟩ := h.cps_tiles
    rw [he]
    exact Nat.mul_pos hk (by decide)
  have hns : (launchArgs u32 tokens hq capacity p.ns).gridY = p.ns :=
    u32_of_lt (h.grid.2.trans_lt (by decide))
  have hcover := exactCover_chunks hcps h.consistent.covers.2
  constructor
  case inside =>
    rintro s o ⟨hs, hlo, hhi⟩
    rw [hns] at hs
    rw [h.c1_eq hend hs] at hhi
    exact (Nat.lt_min.mp hhi).2
  case once =>
    intro o ho
    obtain ⟨s, ⟨hs, hlo, hhi⟩, huniq⟩ := hcover.once o ho
    refine ⟨s, ⟨by rwa [hns], by rwa [h.c0_eq hend hs], by rwa [h.c1_eq hend hs]⟩, ?_⟩
    rintro s' ⟨hs', hlo', hhi'⟩
    rw [hns] at hs'
    rw [h.c0_eq hend hs'] at hlo'
    rw [h.c1_eq hend hs'] at hhi'
    exact huniq s' ⟨hs', hlo', hhi'⟩

lemma inRange (hlast : ((tokens - 1) * hq + 8 * p.hqt - 1) * (DIM + PE_DIM) < 2 ^ 32) :
    InRange (launchArgs u32 tokens hq capacity p.ns) (launchArgs id tokens hq capacity p.ns) := by
  obtain ⟨-, -, hhqt, -⟩ := h.heads_lt
  replace hhqt : cdiv hq 8 < 2 ^ 32 := by omega
  rw [h.fields.1] at hlast
  constructor
  case ends =>
    intro s hs
    rw [splitEnd_words, u32_eq_self_iff]
    simp only [Args.splitEnd, Args.c0, launchArgs, id_eq, h.cps]
    exact split_lt hend hs
  case ring =>
    intro s hs j hj
    exact u32_of_lt ((h.tile_le hend hs hj).trans_lt (split_lt hend hs))
  case topk =>
    intro r hr s hs c hc
    rw [h.c1_eq hend hs] at hc
    have ht : r / cdiv hq 8 < tokens := Nat.div_lt_of_lt_mul (by rwa [Nat.mul_comm])
    have hlt := place_lt ht (Nat.lt_min.mp hc).2
    have htopk := h.topk
    rw [topkIndex_words hhqt, u32_eq_self_iff]
    simp only [Args.topkIndex, Args.t, launchArgs, id_eq]
    omega
  case q =>
    intro r hr s _ _ i hi
    rw [qIndex_words hhqt, u32_eq_self_iff]
    exact (qIndex_le hr hi).trans_lt hlast
  case lse =>
    intro r hr s hs i hi hguard
    rw [outRow_words hhqt, u32_eq_self_iff]
    exact h.row_lt (outRow_lt hr (h.guard hi hguard) hs)
  case oPart =>
    intro r hr s hs i hi hguard v hv t4 ht4
    rw [oIndex_words hhqt, u32_eq_self_iff]
    have hrow : (launchArgs id tokens hq capacity p.ns).outRow id r i s < tokens * hq * p.ns :=
      outRow_lt hr (h.guard hi hguard) hs
    have hlt := h.element_lt hrow (show 64 * v + 16 * t4 < DIM by rw [DIM]; omega)
    rwa [← Nat.add_assoc] at hlt
  case merge =>
    intro r hr s hs
    have hrow : r * p.ns + s < tokens * hq * p.ns := place_lt hr hs
    rw [mergeRow_words, u32_eq_self_iff]
    refine ⟨h.row_lt hrow, fun wd hwd => ?_⟩
    rw [mergeIndex_words, u32_eq_self_iff]
    exact h.element_lt hrow (show 2 * wd < DIM by rw [DIM]; omega)

end Accepted

/-- The launch of an accepted plan partitions the capacity with every index in range if and only if neither the
end of the last split nor the row of the last head that is staged reaches 2^32. -/
theorem ranges_iff {tokens hq capacity numSms c2 : ℕ} {p : DsMlaPlan}
    (h : plan tokens hq capacity numSms c2 = .ok p) :
    ∃ a b, decode u32 tokens hq capacity p.ns = .ok a ∧ decode id tokens hq capacity p.ns = .ok b ∧
      (Partition capacity a ∧ InRange a b ↔ p.ns * p.cPerSplit < 2 ^ 32 ∧
        ((tokens - 1) * hq + 8 * p.hqt - 1) * (DIM + PE_DIM) < 2 ^ 32) := by
  have hacc := plan_inv h
  refine ⟨_, _, hacc.decode_ok u32, hacc.decode_ok id, ?_⟩
  constructor
  case mpr =>
    rintro ⟨hend, hlast⟩
    exact ⟨hacc.partition hend, hacc.inRange hend hlast⟩
  case mp =>
    rintro ⟨-, hrange⟩
    have hns := hacc.consistent.mem.1
    have hend : p.ns * p.cPerSplit < 2 ^ 32 := by
      -- the end of the last split
      have hlt := hrange.ends (p.ns - 1) (Nat.sub_lt hns Nat.one_pos)
      rw [splitEnd_words, u32_eq_self_iff] at hlt
      simp only [Args.splitEnd, Args.c0, launchArgs, id_eq, hacc.cps, ← Nat.succ_mul] at hlt
      rwa [Nat.succ_eq_add_one, Nat.sub_add_cancel hns] at hlt
    refine ⟨hend, ?_⟩
    obtain ⟨r, hr, hlast⟩ := hacc.qIndex_last
    obtain ⟨k, hk, hcps⟩ := hacc.cps_tiles
    have hne : (launchArgs u32 tokens hq capacity p.ns).c0 u32 0 <
        (launchArgs u32 tokens hq capacity p.ns).c1 u32 0 := by
      rw [hacc.c0_eq hend hns, hacc.c1_eq hend hns, hcps, Nat.lt_min]
      have := hacc.positive.2.2.2
      rw [TN]
      omega
    have hlt := hrange.q r hr 0 hns hne 7 (by decide)
    obtain ⟨-, -, hhqt, -⟩ := hacc.heads_lt
    rw [qIndex_words (by omega), u32_eq_self_iff, hlast] at hlt
    rwa [hacc.fields.1]

/-- Six tokens of eight heads with 2048 rows. -/
theorem ranges_iff_verify : ∃ a b, decode u32 6 8 2048 16 = .ok a ∧ decode id 6 8 2048 16 = .ok b ∧
    Partition 2048 a ∧ InRange a b := by
  have hplan : plan 6 8 2048 188 4 = .ok ⟨1, 128, 16, 6, 48⟩ := by decide
  obtain ⟨a, b, ha, hb, hiff⟩ := ranges_iff hplan
  exact ⟨a, b, ha, hb, hiff.mpr (by decide)⟩

/-- At the largest capacity the end of the last split wraps, and its rows are in no split. -/
theorem last_split_empty : plan 1 8 (2 ^ 32 - 1) 188 4 = .ok ⟨1, 22845632, 188, 1, 8⟩ ∧
    ∃ a, decode u32 1 8 (2 ^ 32 - 1) 188 = .ok a ∧ ¬ Partition (2 ^ 32 - 1) a := by
  refine ⟨by decide +kernel, launchArgs u32 1 8 (2 ^ 32 - 1) 188, by decide, fun hpart => ?_⟩
  obtain ⟨s, ⟨hs, hlo, hhi⟩, -⟩ := hpart.once (2 ^ 32 - 2) (by decide)
  have hnone : ∀ s < 188, ¬ ((launchArgs u32 1 8 (2 ^ 32 - 1) 188).c0 u32 s ≤ 2 ^ 32 - 2 ∧
      2 ^ 32 - 2 < (launchArgs u32 1 8 (2 ^ 32 - 1) 188).c1 u32 s) := by decide +kernel
  exact hnone s hs ⟨hlo, hhi⟩

end SuffixHybrid.DsMla
