import SuffixHybrid.Lib.Grid
import SuffixHybrid.Lib.Ticket
import SuffixHybrid.Lib.Top

/-!
# Candidate logits

The fused selection of a decode row: `dsa_cand_logits` scores the positions of the candidate blocks into slots,
the top-k ranks the slots, and `cand_remap` maps them to positions. The logit of a position stands for what the
kernel computes of the query and the cache; `-inf` is `⊥`. vLLM's own mask and top-k are taken with what they
are documented to do.
-/

namespace SuffixHybrid.Dsa
open Lib

/-! ## Kernel -/

/-- The candidate blocks of each row, `width` columns. -/
structure Cand where
  rows : ℕ
  width : ℕ
  ids : ℕ → ℕ → ℤ

/-- The grid and the tunables of a launch. -/
structure Tuning where
  splits : ℕ
  splitDiv : ℕ
  minTiles : ℕ
  splits_pos : 0 < splits
  splitDiv_pos : 0 < splitDiv
  minTiles_pos : 0 < minTiles

/-- What a decode call scores: the rows, their lengths and candidates, the block size, the logit of each
position, and the memory that `torch.empty` gives. -/
structure Batch (α : Type) where
  rows : ℕ
  cl : ℕ → ℤ
  cand : Cand
  bsz : ℕ
  logit : ℕ → ℕ → α
  tuning : Tuning
  blank : ℕ × ℕ → WithBot α

namespace Batch
variable {α : Type} (q : Batch α)

/-- `hi`: the length, at least 0. -/
def hi (r : ℕ) : ℕ := (q.cl r).toNat

/-- `nslot`. -/
def nslot (r : ℕ) : ℕ := min ((q.hi r + q.bsz - 1) / q.bsz) q.cand.width * q.bsz

/-- `per`: the slots of a split. -/
def per (r : ℕ) : ℕ :=
  let eff := (q.tuning.splits + q.tuning.splitDiv - 1) / q.tuning.splitDiv
  let tiles := (q.nslot r + 63) / 64
  max ((tiles + eff - 1) / eff) q.tuning.minTiles * 64

/-- `pos`: the position of a slot. -/
def pos (r j : ℕ) : ℤ := q.cand.ids r (j / q.bsz) * q.bsz + (j % q.bsz : ℕ)

/-- `ok`. -/
def Ok (r j : ℕ) : Prop := 0 ≤ q.cand.ids r (j / q.bsz) ∧ q.pos r j < q.hi r

instance (r j : ℕ) : Decidable (q.Ok r j) := inferInstanceAs (Decidable (_ ∧ _))

/-- What a program stores in a slot. -/
def slot (r j : ℕ) : WithBot α := if q.Ok r j then q.logit r (q.pos r j).toNat else ⊥

/-- The stores of a program. -/
def program (r s : ℕ) : List ((ℕ × ℕ) × WithBot α) :=
  let k0 := s * q.per r
  let k1 := min (k0 + q.per r) (q.nslot r)
  (List.range' k0 (k1 - k0)).map fun j => ((r, j), q.slot r j)

/-- `dsa_cand_logits`. -/
def candLogits : ℕ × ℕ → WithBot α :=
  storeAll q.blank ((List.range q.rows).flatMap fun r =>
    (List.range q.tuning.splits).flatMap fun s => q.program r s)

variable {q} {r : ℕ}

/-- Every slot that can hold a candidate is in the range of some split. -/
lemma exists_split {j : ℕ} (hj : j < q.nslot r) :
    ∃ s < q.tuning.splits, s * q.per r ≤ j ∧ j < min (s * q.per r + q.per r) (q.nslot r) := by
  have hsplits := q.tuning.splits_pos
  have hmin := q.tuning.minTiles_pos
  obtain ⟨eff, heff⟩ : ∃ eff, eff = cdiv q.tuning.splits q.tuning.splitDiv := ⟨_, rfl⟩
  have hpos : 0 < eff := heff ▸ (cdiv_pos_iff q.tuning.splitDiv_pos).mpr hsplits
  have hle : eff ≤ q.tuning.splits :=
    heff ▸ (cdiv_le_iff q.tuning.splitDiv_pos).mpr (Nat.le_mul_of_pos_left _ q.tuning.splitDiv_pos)
  have hper : q.per r = max (cdiv ((q.nslot r + 63) / 64) eff) q.tuning.minTiles * 64 := heff ▸ rfl
  have hper0 : 0 < q.per r := by
    rw [hper]
    omega
  have hcover : q.nslot r ≤ eff * q.per r :=
    calc q.nslot r ≤ (q.nslot r + 63) / 64 * 64 := by omega
      _ ≤ eff * cdiv ((q.nslot r + 63) / 64) eff * 64 := Nat.mul_le_mul_right _ (le_mul_cdiv hpos)
      _ ≤ eff * q.per r := by
        rw [hper, Nat.mul_assoc]
        exact Nat.mul_le_mul_left _ (Nat.mul_le_mul_right _ (Nat.le_max_left _ _))
  have hdiv := Nat.div_add_mod j (q.per r)
  have hmod := Nat.mod_lt j hper0
  rw [Nat.mul_comm] at hdiv
  refine ⟨j / q.per r, ?_, by omega, by omega⟩
  refine Nat.lt_of_lt_of_le ((Nat.div_lt_iff_lt_mul hper0).mpr ?_) hle
  exact Nat.lt_of_lt_of_le hj hcover

/-- What the kernel leaves in such a slot. -/
lemma candLogits_eq (hr : r < q.rows) {j : ℕ} (hj : j < q.nslot r) : q.candLogits (r, j) = q.slot r j := by
  refine storeAll_of_agree _ (fun p hp e => ?_) (.inr ?_)
  · simp only [List.mem_flatMap] at hp
    obtain ⟨r', _, s, _, hp⟩ := hp
    obtain ⟨j', _, rfl⟩ := List.mem_map.mp hp
    cases e
    rfl
  · obtain ⟨s, hs, hlo, hhi⟩ := exists_split hj
    refine ⟨((r, j), q.slot r j), ?_, rfl⟩
    simp only [List.mem_flatMap, List.mem_range]
    refine ⟨r, hr, s, hs, List.mem_map.mpr ⟨j, ?_, rfl⟩⟩
    rw [List.mem_range'_1]
    omega

end Batch

/-! ## Ranking -/

/-- `cand_lens`. -/
def candLens (cl : ℤ) (ncand bsz : ℕ) : ℤ := min ((cl + bsz - 1) / bsz) ncand * bsz

/-- `cand_remap` of the torch twin, on a slot. -/
def remapTwin (cand : ℕ → ℤ) (cl : ℤ) (bsz : ℕ) (s : ℤ) : ℤ :=
  let sc := max s 0
  let blk := cand (sc / bsz).toNat
  let pos := blk * bsz + sc % bsz
  if 0 ≤ s ∧ 0 ≤ blk ∧ pos < cl then pos else -1

/-- `_remap_kernel`, on a slot: a masked load gives -1. -/
def remapKernel (cand : ℕ → ℤ) (cl : ℤ) (bsz : ℕ) (s : ℤ) : ℤ :=
  let sc := max s 0
  let blk := if 0 ≤ s then cand (sc / bsz).toNat else -1
  let pos := blk * bsz + sc % bsz
  if 0 ≤ s ∧ 0 ≤ blk ∧ pos < cl then pos else -1

/-- `cand_remap`, on a row. -/
def candRemap (cuda : Bool) (cand : ℕ → ℤ) (cl : ℤ) (bsz : ℕ) (idx : List ℤ) : List ℤ :=
  idx.map (if cuda then remapKernel cand cl bsz else remapTwin cand cl bsz)

/-- The entries of a row of top-k indices that are not -1. -/
def picks (idx : List ℤ) : List ℕ := idx.filterMap fun i => if 0 ≤ i then some i.toNat else none

/-- A row of `k` indices: the largest elements of `D`, each once, and -1 elsewhere. -/
structure Selects {β : Type} [LinearOrder β] (k : ℕ) (D : Finset ℕ) (val : ℕ → β) (idx : List ℤ) : Prop where
  length : idx.length = k
  minus : ∀ i ∈ idx, -1 ≤ i
  top : Top k D val (picks idx)

lemma picks_cons_nonneg {i : ℤ} (h : 0 ≤ i) (l : List ℤ) : picks (i :: l) = i.toNat :: picks l := by
  rw [picks, List.filterMap_cons, if_pos h]
  rfl

lemma picks_cons_neg {i : ℤ} (h : i < 0) (l : List ℤ) : picks (i :: l) = picks l := by
  rw [picks, List.filterMap_cons, if_neg (Int.not_le.mpr h)]
  rfl

lemma picks_append (l m : List ℤ) : picks (l ++ m) = picks l ++ picks m := List.filterMap_append

lemma picks_ofNat (l : List ℕ) : picks (l.map Int.ofNat) = l := by
  rw [picks, List.filterMap_map]
  refine (List.filterMap_congr fun i _ => ?_).trans (List.filterMap_some)
  have h : (0 : ℤ) ≤ Int.ofNat i := Int.natCast_nonneg i
  rw [Function.comp_apply, if_pos h]
  rfl

lemma picks_replicate (n : ℕ) : picks (List.replicate n (-1)) = [] := by
  rw [picks, List.filterMap_eq_nil_iff]
  intro i hi
  rw [List.eq_of_mem_replicate hi]
  rfl

/-- vLLM's functions on a row: the top-k of the first `len` logits, as far as they are below the bound; and the
mask, which leaves the candidate blocks. -/
structure Vllm (α : Type) [LinearOrder α] where
  topk : (ℕ → WithBot α) → ℤ → ℕ → ℤ → List ℤ
  mask : (ℕ → WithBot α) → ℤ → (ℕ → ℤ) → ℕ → ℕ → ℕ → WithBot α
  topk_spec : ∀ row len k bound, len ≤ bound → Selects k (Finset.range len.toNat) row (topk row len k bound)
  mask_spec : ∀ row (len : ℤ) cand ncand bsz (p : ℕ), p < len → mask row len cand ncand bsz p =
    if ∃ i < ncand, cand i = (p / bsz : ℕ) then row p else ⊥

variable {α : Type} [LinearOrder α]

/-- There are functions that do this: the mask, and a top-k that sorts. -/
def Vllm.sorting : Vllm α where
  topk := fun row len k _ =>
    let sel := largest row len.toNat k
    sel.map Int.ofNat ++ List.replicate (k - sel.length) (-1)
  mask := fun row _ cand ncand bsz p => if ∃ i < ncand, cand i = (p / bsz : ℕ) then row p else ⊥
  topk_spec := by
    intro row len k bound _
    have htop := top_largest row len.toNat k
    have hle : (largest row len.toNat k).length ≤ k := htop.length.trans_le (Nat.min_le_left _ _)
    refine ⟨?_, fun i hi => ?_, ?_⟩
    · rw [List.length_append, List.length_map, List.length_replicate]
      omega
    · obtain hi | hi := List.mem_append.mp hi
      · obtain ⟨j, _, rfl⟩ := List.mem_map.mp hi
        exact Int.le_trans (by decide) (Int.natCast_nonneg j)
      · rw [List.eq_of_mem_replicate hi]
    · rw [picks_append, picks_ofNat, picks_replicate, List.append_nil]
      exact htop
  mask_spec := fun _ _ _ _ _ _ _ => rfl

/-- The patched ranking of the fused logits of a row. -/
def Batch.rank (q : Batch α) (V : Vllm α) (cuda : Bool) (k : ℕ) (maxSeqLen : ℤ) (r : ℕ) : List ℤ :=
  let lens := candLens (q.cl r) q.cand.width q.bsz
  let bound := min ((q.cand.width * q.bsz : ℕ) : ℤ) (-(-maxSeqLen / q.bsz) * q.bsz)
  candRemap cuda (q.cand.ids r) (q.cl r) q.bsz (V.topk (fun j => q.candLogits (r, j)) lens k bound)

/-- The ranking of the dense logits behind the mask. -/
def Batch.rankDense (q : Batch α) (V : Vllm α) (dense : ℕ → WithBot α) (k : ℕ) (maxSeqLen : ℤ) (r : ℕ) :
    List ℤ :=
  V.topk (V.mask dense (q.cl r) (q.cand.ids r) q.cand.width q.bsz) (q.cl r) k maxSeqLen

end SuffixHybrid.Dsa
