import Mathlib.Tactic.Ring
import SuffixHybrid.HostAr.Basic

/-!
# Rounds, chunks and slots

The rounds cover the elements of a message, and the chunks of the ranks cover a round. A chunk fits the
reduced slot. The accesses stay inside their slots as long as the offsets stay below the sizes, which for
the int8 scales means below a quarter of the slot's elements.
-/

namespace SuffixHybrid.HostAr
open Lib

lemma block_pos : 0 < block := by decide

/-- The sizes of a launch that the constructor accepts, other than 0. -/
structure Launch.Sized {B : Type} (L : Launch B) : Prop where
  world : 1 < L.world
  round : 0 < L.round
  dvd : L.world * block ∣ L.round
  grid : 0 < L.grid

namespace Launch
variable {B : Type} {L : Launch B}

/-! ## Rounds -/

/-- An index of the message is in a round. -/
lemma exists_round (hround : 0 < L.round) {i : ℕ} (hi : i < L.n) :
    i / L.round < cdiv L.n L.round ∧ L.base (i / L.round) + i % L.round = i ∧ i % L.round < L.rn (i / L.round) := by
  have hdiv := Nat.div_add_mod i L.round
  have hmod := Nat.mod_lt i hround
  rw [lt_cdiv_iff hround, rn, base, Nat.lt_min, Nat.mul_comm (i / L.round)]
  refine ⟨by omega, by omega, by omega, hmod⟩

lemma lt_of_rn {rnd o : ℕ} (ho : o < L.rn rnd) : L.base rnd + o < L.n := by
  have := Nat.lt_of_lt_of_le ho (Nat.min_le_left _ _)
  omega

lemma lt_round {rnd o : ℕ} (ho : o < L.rn rnd) : o < L.round := Nat.lt_of_lt_of_le ho (Nat.min_le_right _ _)

/-- The round and the offset of an index are determined by it. -/
lemma base_add {rnd o : ℕ} (ho : o < L.rn rnd) :
    (L.base rnd + o) / L.round = rnd ∧ (L.base rnd + o) % L.round = o := by
  have hlt := lt_round ho
  have hpos : 0 < L.round := Nat.zero_lt_of_lt hlt
  rw [base]
  constructor
  · rw [Nat.mul_comm, Nat.mul_add_div hpos, Nat.div_eq_of_lt hlt, Nat.add_zero]
  · rw [Nat.mul_comm, Nat.mul_add_mod, Nat.mod_eq_of_lt hlt]

/-! ## Chunks -/

namespace Sized
variable (h : L.Sized) {unit rnd : ℕ} (hunit : unit ∣ block)
include h

lemma dvd_block : block ∣ L.round := Nat.dvd_trans (Nat.dvd_mul_left _ _) h.dvd

lemma block_dvd_rch : block ∣ L.rch := by
  obtain ⟨q, hq⟩ := h.dvd
  rw [rch, hq, Nat.mul_assoc, Nat.mul_div_cancel_left _ (Nat.zero_lt_of_lt h.world)]
  exact Nat.dvd_mul_right _ _

lemma world_mul_rch : L.world * L.rch = L.round :=
  Nat.mul_div_cancel' (Nat.dvd_trans (Nat.dvd_mul_right _ _) h.dvd)

include hunit

omit h in
lemma unit_pos : 0 < unit := Nat.pos_of_dvd_of_pos hunit block_pos

/-- A chunk fits a reduced slot. -/
lemma ch_le : L.ch unit rnd ≤ L.rch := by
  have hworld : 0 < L.world := Nat.zero_lt_of_lt h.world
  have hpart : cdiv (L.rn rnd) L.world ≤ L.rch := by
    rw [cdiv_le_iff hworld, h.world_mul_rch]
    exact Nat.min_le_right _ _
  obtain ⟨q, hq⟩ := Nat.dvd_trans hunit h.block_dvd_rch
  rw [hq] at hpart ⊢
  rw [ch, Nat.mul_comm unit q]
  refine Nat.mul_le_mul_right _ ?_
  rw [cdiv_le_iff (unit_pos hunit)]
  exact hpart

omit h in
lemma ch_pos (hn : 0 < L.rn rnd) (hworld : 0 < L.world) : 0 < L.ch unit rnd := by
  refine Nat.mul_pos ?_ (unit_pos hunit)
  rw [cdiv_pos_iff (unit_pos hunit), cdiv_pos_iff hworld]
  exact hn

/-- The chunks cover the round. -/
lemma rn_le : L.rn rnd ≤ L.world * L.ch unit rnd := by
  refine (le_mul_cdiv (Nat.zero_lt_of_lt h.world)).trans (Nat.mul_le_mul_left _ ?_)
  rw [ch, Nat.mul_comm]
  exact le_mul_cdiv (unit_pos hunit)

/-- The rank whose chunk an offset is in. -/
lemma owner_lt {o : ℕ} (ho : o < L.rn rnd) : o / L.ch unit rnd < L.world := by
  have hpos := ch_pos hunit (Nat.zero_lt_of_lt ho) (Nat.zero_lt_of_lt h.world)
  rw [Nat.div_lt_iff_lt_mul hpos]
  exact Nat.lt_of_lt_of_le ho (h.rn_le hunit)

lemma mem_chunk_iff {r o : ℕ} (ho : o < L.rn rnd) :
    L.lo unit rnd r ≤ o ∧ o < L.hi unit rnd r ↔ o / L.ch unit rnd = r :=
  chunk_iff (ch_pos hunit (Nat.zero_lt_of_lt ho) (Nat.zero_lt_of_lt h.world)) ho

/-- Every rank but the owner writes its partial. -/
lemma others_iff {r o : ℕ} (ho : o < L.rn rnd) : L.Others unit rnd r o ↔ o / L.ch unit rnd ≠ r := by
  rw [Ne, ← h.mem_chunk_iff hunit ho, Others]
  constructor
  · rintro ⟨_, hout⟩ hin
    omega
  · intro hnot
    exact ⟨ho, by omega⟩

omit h hunit in
lemma lt_rn_of_hi {r o : ℕ} (ho : o < L.hi unit rnd r) : o < L.rn rnd :=
  Nat.lt_of_lt_of_le ho (Nat.min_le_right _ _)

/-- An offset in a chunk is one in the reduced slot. -/
lemma sub_lo_lt {r o : ℕ} (hlo : L.lo unit rnd r ≤ o) (ho : o < L.hi unit rnd r) :
    o - L.lo unit rnd r < L.rch := by
  have hch : L.ch unit rnd ≤ L.rch := h.ch_le hunit
  have := Nat.lt_of_lt_of_le ho (Nat.min_le_left _ _)
  omega

omit h hunit in
lemma unit_dvd_lo (r : ℕ) : unit ∣ L.lo unit rnd r :=
  Nat.dvd_trans (Nat.dvd_mul_left _ _) (Nat.dvd_mul_left _ _)

/-- The rounds of a message of whole units have whole units. -/
lemma unit_dvd_rn (hn : unit ∣ L.n) : unit ∣ L.rn rnd := by
  have hround : unit ∣ L.round := Nat.dvd_trans hunit h.dvd_block
  rw [rn]
  rcases Nat.le_total (L.n - L.base rnd) L.round with hle | hle
  · rw [Nat.min_eq_left hle]
    exact Nat.dvd_sub hn (Nat.dvd_trans hround (Nat.dvd_mul_left _ _))
  · rw [Nat.min_eq_right hle]
    exact hround

end Sized

/-! ## Slots -/

lemma inside_dataAt (par j : ℕ) {o : ℕ} (ho : o < L.round) : L.Inside (L.dataAt par j o) := by
  have heq : par * (L.world * L.round) + j * L.round = (par * L.world + j) * L.round := by
    rw [Nat.add_mul, Nat.mul_assoc]
  simp only [Inside, dataAt, slotStart, slotSize, heq, Bool.false_eq_true, if_false]
  omega

lemma inside_redAt (par j : ℕ) {o : ℕ} (ho : o < L.rch) : L.Inside (L.redAt par j o) := by
  have heq : par * (L.world * L.rch) + j * L.rch = (par * L.world + j) * L.rch := by
    rw [Nat.add_mul, Nat.mul_assoc]
  simp only [Inside, redAt, slotStart, slotSize, heq, if_true]
  omega

lemma inside_codeAt (par j : ℕ) {o : ℕ} (ho : o < L.round) : L.Inside (L.codeAt par j o) := by
  have heq : (par * L.world + j) * (2 * L.round) = (par * L.world + j) * L.round * 2 := by
    rw [Nat.mul_comm 2, Nat.mul_assoc]
  simp only [Inside, codeAt, slotStart, slotSize, heq, Bool.false_eq_true, if_false]
  omega

lemma inside_redCodeAt (par j : ℕ) {o : ℕ} (ho : o < L.rch) : L.Inside (L.redCodeAt par j o) := by
  have heq : (par * L.world + j) * (2 * L.rch) = (par * L.world + j) * L.rch * 2 := by
    rw [Nat.mul_comm 2, Nat.mul_assoc]
  simp only [Inside, redCodeAt, slotStart, slotSize, heq, if_true]
  omega

/-- A scale is inside the slot if and only if it is in its last quarter. -/
lemma inside_scaleAt_iff (h : L.Sized) (par j og : ℕ) : L.Inside (L.scaleAt par j og) ↔ 4 * og < L.round := by
  obtain ⟨q, hq⟩ := Nat.dvd_trans (by decide : 4 ∣ block) h.dvd_block
  have hhalf : L.round / 2 = 2 * q := by omega
  have hquarter : L.round / 4 = q := by omega
  have heq : (par * L.world + j) * L.round * 2 = 4 * ((par * L.world + j) * (L.round / 2)) := by
    rw [hhalf, hq]
    ring
  simp only [Inside, scaleAt, slotStart, slotSize, heq, hquarter, Bool.false_eq_true, if_false]
  omega

lemma inside_redScaleAt_iff (h : L.Sized) (par j og : ℕ) :
    L.Inside (L.redScaleAt par j og) ↔ 4 * og < L.rch := by
  obtain ⟨q, hq⟩ := Nat.dvd_trans (by decide : 4 ∣ block) h.block_dvd_rch
  have hhalf : L.rch / 2 = 2 * q := by omega
  have hquarter : L.rch / 4 = q := by omega
  have heq : (par * L.world + j) * L.rch * 2 = 4 * ((par * L.world + j) * (L.rch / 2)) := by
    rw [hhalf, hq]
    ring
  simp only [Inside, redScaleAt, slotStart, slotSize, heq, hquarter, if_true]
  omega

/-- The slot number and the offset at an address: the slots have `size` words of `width` bytes. -/
def cell (start width size addr : ℕ) : ℕ × ℕ := ((addr - start) / width / size, (addr - start) / width % size)

lemma cell_add {start width size slot o : ℕ} (hwidth : 0 < width) (ho : o < size) :
    cell start width size (start + width * (slot * size + o)) = (slot, o) := by
  have hsize : 0 < size := Nat.zero_lt_of_lt ho
  rw [cell, Nat.add_sub_cancel_left, Nat.mul_div_cancel_left _ hwidth, Nat.mul_comm slot, Nat.mul_add_div hsize,
    Nat.mul_add_mod, Nat.div_eq_of_lt ho, Nat.mod_eq_of_lt ho, Nat.add_zero]

lemma cell_dataAt (par j : ℕ) {o : ℕ} (ho : o < L.round) :
    cell flagBytes 2 L.round (L.dataAt par j o).addr = (par * L.world + j, o) := by
  have heq : par * (L.world * L.round) + j * L.round = (par * L.world + j) * L.round := by
    rw [Nat.add_mul, Nat.mul_assoc]
  rw [dataAt, heq]
  exact cell_add Nat.two_pos ho

lemma cell_redAt (par j : ℕ) {o : ℕ} (ho : o < L.rch) :
    cell (flagBytes + L.dataBytes) 2 L.rch (L.redAt par j o).addr = (par * L.world + j, o) := by
  have heq : par * (L.world * L.rch) + j * L.rch = (par * L.world + j) * L.rch := by
    rw [Nat.add_mul, Nat.mul_assoc]
  rw [redAt, heq]
  exact cell_add Nat.two_pos ho

/-! ## Loops -/

lemma mem_lanes_iff {s o : ℕ} : o ∈ lanes s ↔ s ≤ o ∧ o < s + block := by
  rw [lanes, List.mem_map]
  constructor
  · rintro ⟨lane, hlane, rfl⟩
    rw [List.mem_range] at hlane
    omega
  · rintro ⟨hlo, hhi⟩
    exact ⟨o - s, List.mem_range.mpr (by omega), by omega⟩

/-- The offsets of a block over a range. -/
lemma mem_loop_iff {pid start stop o : ℕ} :
    o ∈ ((L.tiles pid start stop).flatMap fun s => (lanes s).filter fun o => o < stop) ↔
      ∃ s ∈ L.tiles pid start stop, s ≤ o ∧ o < s + block ∧ o < stop := by
  simp only [List.mem_flatMap, List.mem_filter, mem_lanes_iff, decide_eq_true_eq, and_assoc]

lemma le_of_mem_tiles {pid start stop s : ℕ} (h : s ∈ L.tiles pid start stop) (hgrid : 0 < L.grid) :
    start ≤ s ∧ s < stop ∧ block ∣ s - start := by
  obtain ⟨hlt, q, rfl⟩ := of_mem_steps block_pos hgrid h
  refine ⟨Nat.le_add_right _ _, hlt, ?_⟩
  rw [Nat.add_sub_cancel_left]
  exact Nat.dvd_mul_left _ _

/-- Every offset of a range is taken by some block. -/
lemma exists_mem_loop (hgrid : 0 < L.grid) {start stop o : ℕ} (hlo : start ≤ o) (hhi : o < stop) :
    ∃ pid < L.grid, ∃ s ∈ L.tiles pid start stop, s ≤ o ∧ o < s + block ∧ o < stop := by
  obtain ⟨pid, hpid, s, hs, hso, hos⟩ := exists_tile block_pos hgrid hlo hhi
  exact ⟨pid, hpid, s, hs, hso, hos, hhi⟩

end Launch
end SuffixHybrid.HostAr
