import Mathlib.Algebra.Order.Floor.Div
import Mathlib.Tactic.Common

/-!
# Strided loops

The blocks of a grid share a range in tiles: block `pid` takes the tiles from `start + pid * block`,
`start + (pid + grid) * block` and so on, each of `block` indices. Every index of the range is in a tile of
some block (`exists_tile`). Chunks of equal size share a range too (`chunk_iff`, `exactCover_chunks`).
-/

namespace Lib

/-- Division rounded up. -/
def cdiv (a b : ℕ) : ℕ := (a + b - 1) / b

lemma cdiv_le_iff {a b c : ℕ} (hb : 0 < b) : cdiv a b ≤ c ↔ a ≤ b * c := by
  rw [cdiv, ← Nat.ceilDiv_eq_add_pred_div]
  exact ceilDiv_le_iff_le_mul hb

lemma lt_cdiv_iff {a b c : ℕ} (hb : 0 < b) : c < cdiv a b ↔ b * c < a := by
  rw [← Nat.not_le, cdiv_le_iff hb, Nat.not_le]

lemma le_mul_cdiv {a b : ℕ} (hb : 0 < b) : a ≤ b * cdiv a b := (cdiv_le_iff hb).mp (Nat.le_refl _)

lemma cdiv_pos_iff {a b : ℕ} (hb : 0 < b) : 0 < cdiv a b ↔ 0 < a := by
  rw [lt_cdiv_iff hb, Nat.mul_zero]

/-- The values of a loop with a step. -/
def steps (start stop step : ℕ) : List ℕ :=
  (List.range (cdiv (stop - start) step)).map fun k => start + k * step

lemma mem_steps_iff {start stop step s : ℕ} (hstep : 0 < step) :
    s ∈ steps start stop step ↔ ∃ k, s = start + k * step ∧ s < stop := by
  rw [steps, List.mem_map]
  constructor
  · rintro ⟨k, hk, rfl⟩
    rw [List.mem_range, lt_cdiv_iff hstep, Nat.mul_comm] at hk
    exact ⟨k, rfl, by omega⟩
  · rintro ⟨k, rfl, hlt⟩
    refine ⟨k, ?_, rfl⟩
    rw [List.mem_range, lt_cdiv_iff hstep, Nat.mul_comm]
    omega

lemma nodup_steps {start stop step : ℕ} (hstep : 0 < step) : (steps start stop step).Nodup := by
  refine List.Nodup.map (fun a b h => ?_) List.nodup_range
  exact Nat.eq_of_mul_eq_mul_right hstep (Nat.add_left_cancel h)

lemma steps_cons {start stop step : ℕ} (hstep : 0 < step) (h : start < stop) :
    steps start stop step = start :: steps (start + step) stop step := by
  have hcount : cdiv (stop - start) step = cdiv (stop - (start + step)) step + 1 := by
    obtain hle | hlt := le_or_gt (start + step) stop
    · rw [cdiv, cdiv, ← Nat.add_div_right _ hstep]
      congr 1
      omega
    · rw [cdiv, cdiv, Nat.sub_eq_zero_of_le hlt.le, Nat.div_eq_of_lt (by omega : 0 + step - 1 < step)]
      exact Nat.div_eq_of_lt_le (by omega) (by omega)
  rw [steps, hcount, List.range_succ_eq_map, List.map_cons, Nat.zero_mul, Nat.add_zero, List.map_map, steps]
  congr 1
  refine List.map_congr_left fun k _ => ?_
  simp only [Function.comp_apply, Nat.succ_mul]
  omega

variable {block grid start stop : ℕ}

/-- A tile of a block starts at a multiple of the block size. -/
lemma of_mem_steps {pid s : ℕ} (hblock : 0 < block) (hgrid : 0 < grid)
    (h : s ∈ steps (start + pid * block) stop (grid * block)) : s < stop ∧ ∃ q, s = start + q * block := by
  obtain ⟨k, hk, hlt⟩ := (mem_steps_iff (Nat.mul_pos hgrid hblock)).mp h
  refine ⟨hlt, pid + k * grid, ?_⟩
  rw [hk, Nat.add_mul, Nat.mul_assoc, Nat.add_assoc]

/-- Every index of the range is in a tile of some block. -/
lemma exists_tile (hblock : 0 < block) (hgrid : 0 < grid) {o : ℕ} (hlo : start ≤ o) (hhi : o < stop) :
    ∃ pid < grid, ∃ s ∈ steps (start + pid * block) stop (grid * block), s ≤ o ∧ o < s + block := by
  have hdiv := Nat.div_add_mod (o - start) block
  have hmod := Nat.mod_lt (o - start) hblock
  rw [Nat.mul_comm] at hdiv
  refine ⟨(o - start) / block % grid, Nat.mod_lt _ hgrid, start + (o - start) / block * block, ?_, ?_, ?_⟩
  · rw [mem_steps_iff (Nat.mul_pos hgrid hblock)]
    refine ⟨(o - start) / block / grid, ?_, by omega⟩
    calc start + (o - start) / block * block
        = start + ((o - start) / block % grid + grid * ((o - start) / block / grid)) * block := by
          rw [Nat.mod_add_div]
      _ = start + (o - start) / block % grid * block + (o - start) / block / grid * (grid * block) := by
          rw [Nat.add_mul, Nat.mul_comm grid, Nat.mul_assoc, Nat.add_assoc]
  · omega
  · omega

/-- The chunk of an index. -/
lemma chunk_iff {ch n c o : ℕ} (hch : 0 < ch) (ho : o < n) : c * ch ≤ o ∧ o < min (c * ch + ch) n ↔ o / ch = c := by
  rw [Nat.lt_min, Nat.div_eq_iff hch]
  constructor
  · rintro ⟨hlo, hhi, _⟩
    omega
  · rintro ⟨hlo, hhi⟩
    omega

lemma cdiv_mono {a a' b : ℕ} (hb : 0 < b) (h : a ≤ a') : cdiv a b ≤ cdiv a' b := by
  rw [cdiv_le_iff hb]
  exact h.trans (le_mul_cdiv hb)

lemma cdiv_anti {a b b' : ℕ} (hb : 0 < b) (h : b ≤ b') : cdiv a b' ≤ cdiv a b := by
  rw [cdiv_le_iff (hb.trans_le h)]
  exact (le_mul_cdiv hb).trans (Nat.mul_le_mul_right _ h)

/-- Chunks as long as an equal share need at most that many. -/
lemma cdiv_le_of_share {n s ch : ℕ} (hs : 0 < s) (hch : 0 < ch) (h : cdiv n s ≤ ch) : cdiv n ch ≤ s := by
  rw [cdiv_le_iff hch, Nat.mul_comm]
  exact (cdiv_le_iff hs).mp h

/-- Fewer chunks of the same length: rounding the count twice changes the length no more. -/
lemma cdiv_cdiv_cdiv {n s : ℕ} (hn : 0 < n) (hs : 0 < s) : cdiv n (cdiv n (cdiv n s)) = cdiv n s := by
  have hch : 0 < cdiv n s := (cdiv_pos_iff hs).mpr hn
  have hs' : 0 < cdiv n (cdiv n s) := (cdiv_pos_iff hch).mpr hn
  exact Nat.le_antisymm (cdiv_le_of_share hch hs' le_rfl)
    (cdiv_anti hs' (cdiv_le_of_share hs hch le_rfl))

lemma cdiv_cdiv (a : ℕ) {b c : ℕ} (hb : 0 < b) (hc : 0 < c) : cdiv (cdiv a b) c = cdiv a (b * c) := by
  refine eq_of_forall_ge_iff fun n => ?_
  rw [cdiv_le_iff hc, cdiv_le_iff hb, cdiv_le_iff (Nat.mul_pos hb hc), Nat.mul_assoc]

lemma cdiv_le_self (a : ℕ) {b : ℕ} (hb : 0 < b) : cdiv a b ≤ a := by
  rw [cdiv_le_iff hb]
  exact Nat.le_mul_of_pos_left a hb

/-- Enough shares of one length, one after the other: an index is in exactly one of them. -/
lemma exists_share {lo hi per s n : ℕ} (hcap : hi ≤ lo + s * per) (hlo : lo ≤ n) (hhi : n < hi) :
    ∃ i < s, ∀ j, lo + j * per ≤ n ∧ n < lo + j * per + per ↔ j = i := by
  have hper : 0 < per := by
    rcases Nat.eq_zero_or_pos per with rfl | hper
    · omega
    · exact hper
  refine ⟨(n - lo) / per, (Nat.div_lt_iff_lt_mul hper).mpr (by omega), fun j => ?_⟩
  rw [@eq_comm _ j, Nat.div_eq_iff hper]
  omega

/-- The digits of a number whose places have `h'` and `q'` values. -/
lemma digits_iff {h' q' b h q r : ℕ} (hh : h < h') (hq : q < q') :
    (r / (h' * q') = b ∧ r / q' % h' = h ∧ r % q' = q) ↔ r = (b * h' + h) * q' + q := by
  have hq' : 0 < q' := Nat.zero_lt_of_lt hq
  have hdiv : r / (h' * q') = r / q' / h' := by rw [Nat.div_div_eq_div_mul, Nat.mul_comm]
  have hrq := Nat.div_add_mod r q'
  have hrh := Nat.div_add_mod (r / q') h'
  rw [hdiv]
  constructor
  · rintro ⟨rfl, rfl, rfl⟩
    rw [Nat.mul_comm _ h', hrh, Nat.mul_comm, hrq]
  · rintro rfl
    have hdivq : ((b * h' + h) * q' + q) / q' = b * h' + h := by
      rw [Nat.mul_comm, Nat.mul_add_div hq', Nat.div_eq_of_lt hq, Nat.add_zero]
    rw [hdivq]
    refine ⟨?_, ?_, Nat.mul_add_mod_of_lt hq⟩
    · rw [Nat.mul_comm, Nat.mul_add_div (Nat.zero_lt_of_lt hh), Nat.div_eq_of_lt hh, Nat.add_zero]
    · exact Nat.mul_add_mod_of_lt hh

/-- Two places below their ends stay below the end of both. -/
lemma place_lt {b n h h' : ℕ} (hb : b < n) (hh : h < h') : b * h' + h < n * h' :=
  calc b * h' + h < b * h' + h' := Nat.add_lt_add_left hh _
    _ = (b + 1) * h' := (Nat.succ_mul b h').symm
    _ ≤ n * h' := Nat.mul_le_mul_right h' hb

/-- The cells lie in a set, and each of its points is in exactly one of them. -/
structure ExactCover {ι α : Type} (cell : ι → α → Prop) (P : α → Prop) : Prop where
  inside : ∀ i a, cell i a → P a
  once : ∀ a, P a → ∃! i, cell i a

/-- Enough chunks share a range. -/
lemma exactCover_chunks {ch n ns : ℕ} (hch : 0 < ch) (hn : n ≤ ns * ch) :
    ExactCover (fun c o => c < ns ∧ c * ch ≤ o ∧ o < min (c * ch + ch) n) (· < n) where
  inside c o h := (Nat.lt_min.mp h.2.2).2
  once o ho := by
    have hlt : o / ch < ns := by
      rw [Nat.div_lt_iff_lt_mul hch]
      exact ho.trans_le hn
    refine ⟨o / ch, ⟨hlt, (chunk_iff hch ho).mpr rfl⟩, fun c hc => ?_⟩
    exact ((chunk_iff hch ho).mp hc.2).symm

/-! ## Loops in pieces -/

/-- The blocks of a range. -/
lemma range'_blocks (b a k : ℕ) :
    (List.range' a k).flatMap (fun t => (List.range b).map fun c => t * b + c) = List.range' (a * b) (k * b) := by
  induction k generalizing a with
  | zero => rw [Nat.zero_mul]; rfl
  | succ k ih =>
    rw [List.range'_succ, List.flatMap_cons, ih, Nat.succ_mul, Nat.succ_mul, Nat.add_comm (k * b), ← List.range'_append_1]
    exact congrArg (· ++ _) List.range'_eq_map_range.symm

end Lib
