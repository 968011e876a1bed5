import Mathlib.Algebra.BigOperators.Intervals
import Mathlib.Algebra.BigOperators.Ring.Finset
import SuffixHybrid.Lib.Scan
import SuffixHybrid.NvGemm.Operand

/-!
# The k loop of a warp

The loop loads a step while the one before it is multiplied. If the source has the operands of all steps, the loop
ends, and its accumulators are the sums over all of its k (`loop_eq`).
-/

namespace SuffixHybrid.NvGemm
open Finset Lib

/-! ## The instruction -/

/-- The operands of a lane. -/
structure Frag where
  a : Fin 4 → Word
  b : Fin 2 → Word
  sfa : Word
  sfb : Word

variable {R : Type} [CommRing R] (value f8 : ℕ → R)

/-- The operands of the lanes are these matrices, in the layout of the instruction. -/
structure Fragments (f : Fin 32 → Frag) (A SA B SB : ℕ → ℕ → R) : Prop where
  a : ∀ lane : Fin 32, ∀ r : Fin 4, ∀ j < 8,
    A (lane / 4 + 8 * (r.val % 2)) (8 * (lane % 4) + j + 32 * (r.val / 2)) = value (nib ((f lane).a r) j)
  sfa : ∀ lane : Fin 32, ∀ b < 4, SA (8 * (lane % 2) + lane / 4) b = f8 ((f lane).sfa b)
  b : ∀ lane : Fin 32, ∀ r : Fin 2, ∀ j < 8, B (lane / 4) (8 * (lane % 4) + j + 32 * r) = value (nib ((f lane).b r) j)
  sfb : ∀ lane : Fin 32, ∀ b < 4, SB (lane / 4) b = f8 ((f lane).sfb b)

/-- `mma`, which adds the scaled products of the matrices. -/
structure Mma where
  run : (Fin 32 → Fin 4 → R) → (Fin 32 → Frag) → Fin 32 → Fin 4 → R
  spec : ∀ c f A SA B SB, Fragments value f8 f A SA B SB → ∀ (lane : Fin 32) (i : Fin 4), run c f lane i = c lane i +
    ∑ k ∈ range 64, A (lane / 4 + 8 * (i / 2)) k * SA (lane / 4 + 8 * (i / 2)) (k / 16) *
      B (2 * (lane % 4) + i % 2) k * SB (2 * (lane % 4) + i % 2) (k / 16)

/-- The lane that has the scales of a row. -/
lemma scale_lane {row : ℕ} (h : row < 16) : 8 * ((4 * (row % 8) + row / 8) % 2) + (4 * (row % 8) + row / 8) / 4 = row := by
  have hpar : (4 * (row % 8) + row / 8) % 2 = row / 8 := by omega
  have hquad : (4 * (row % 8) + row / 8) / 4 = row % 8 := by omega
  rw [hpar, hquad, Nat.div_add_mod]

/-- A number below `n`. -/
def wrapped {n : ℕ} (h : 0 < n) (i : ℕ) : Fin n := ⟨i % n, Nat.mod_lt i h⟩

lemma lanes_pos : 0 < 32 := by decide

lemma regs_pos : 0 < 4 := by decide

lemma halves_pos : 0 < 2 := by decide

/-- An instruction that takes each element from the lane that has it. -/
def twinRun (c : Fin 32 → Fin 4 → R) (f : Fin 32 → Frag) (lane : Fin 32) (i : Fin 4) : R :=
  c lane i + ∑ k ∈ range 64,
    let row := lane.val / 4 + 8 * (i.val / 2)
    let col := 2 * (lane.val % 4) + i.val % 2
    value (nib ((f (wrapped lanes_pos (4 * (row % 8) + k % 32 / 8))).a (wrapped regs_pos (row / 8 + 2 * (k / 32)))) (k % 8)) *
      f8 ((f (wrapped lanes_pos (4 * (row % 8) + row / 8))).sfa (k / 16)) *
      value (nib ((f (wrapped lanes_pos (4 * col + k % 32 / 8))).b (wrapped halves_pos (k / 32))) (k % 8)) *
      f8 ((f (wrapped lanes_pos (4 * col))).sfb (k / 16))

lemma twinRun_spec (c : Fin 32 → Fin 4 → R) (f : Fin 32 → Frag) (A SA B SB : ℕ → ℕ → R)
    (h : Fragments value f8 f A SA B SB) (lane : Fin 32) (i : Fin 4) : twinRun value f8 c f lane i = c lane i +
      ∑ k ∈ range 64, A (lane / 4 + 8 * (i / 2)) k * SA (lane / 4 + 8 * (i / 2)) (k / 16) *
        B (2 * (lane % 4) + i % 2) k * SB (2 * (lane % 4) + i % 2) (k / 16) := by
  refine congrArg (c lane i + ·) (sum_congr rfl fun k hk => ?_)
  have hk : k < 64 := mem_range.mp hk
  have hlane := lane.isLt
  have hi := i.isLt
  dsimp only
  generalize hrow : lane.val / 4 + 8 * (i.val / 2) = row
  generalize hcol : 2 * (lane.val % 4) + i.val % 2 = col
  have hrow16 : row < 16 := by omega
  have hcol8 : col < 8 := by omega
  have ha := h.a (wrapped lanes_pos (4 * (row % 8) + k % 32 / 8)) (wrapped regs_pos (row / 8 + 2 * (k / 32))) (k % 8)
    (by omega)
  have hsfa := h.sfa (wrapped lanes_pos (4 * (row % 8) + row / 8)) (k / 16) (by omega)
  have hb := h.b (wrapped lanes_pos (4 * col + k % 32 / 8)) (wrapped halves_pos (k / 32)) (k % 8) (by omega)
  have hsfb := h.sfb (wrapped lanes_pos (4 * col)) (k / 16) (by omega)
  rw [← ha, ← hsfa, ← hb, ← hsfb]
  simp only [wrapped]
  have ga : (4 * (row % 8) + k % 32 / 8) % 32 = 4 * (row % 8) + k % 32 / 8 := Nat.mod_eq_of_lt (by omega)
  have ra : (row / 8 + 2 * (k / 32)) % 4 = row / 8 + 2 * (k / 32) := Nat.mod_eq_of_lt (by omega)
  have gsa : (4 * (row % 8) + row / 8) % 32 = 4 * (row % 8) + row / 8 := Nat.mod_eq_of_lt (by omega)
  have gb : (4 * col + k % 32 / 8) % 32 = 4 * col + k % 32 / 8 := Nat.mod_eq_of_lt (by omega)
  have rb : k / 32 % 2 = k / 32 := Nat.mod_eq_of_lt (by omega)
  have gsb : 4 * col % 32 = 4 * col := Nat.mod_eq_of_lt (by omega)
  rw [ga, ra, gsa, gb, rb, gsb]
  have ia : (4 * (row % 8) + k % 32 / 8) / 4 + 8 * ((row / 8 + 2 * (k / 32)) % 2) = row := by omega
  have ka : 8 * ((4 * (row % 8) + k % 32 / 8) % 4) + k % 8 + 32 * ((row / 8 + 2 * (k / 32)) / 2) = k := by omega
  have isa : 8 * ((4 * (row % 8) + row / 8) % 2) + (4 * (row % 8) + row / 8) / 4 = row := scale_lane hrow16
  have ib : (4 * col + k % 32 / 8) / 4 = col := by omega
  have kb : 8 * ((4 * col + k % 32 / 8) % 4) + k % 8 + 32 * (k / 32) = k := by omega
  have isb : 4 * col / 4 = col := by omega
  rw [ia, ka, isa, ib, kb, isb]

/-- It is such an instruction. -/
def twin : Mma value f8 := ⟨twinRun value f8, twinRun_spec value f8⟩

/-! ## The loop -/

variable {value f8} {MT : ℕ}

/-- The accumulators of a warp. -/
abbrev Acc (R : Type) (MT : ℕ) := Fin MT → Fin 32 → Fin 4 → R

/-- `mma_all`. -/
def mmaAll (mma : Mma value f8) (c : Acc R MT) (s : Fin 32 → KStep MT) : Acc R MT := fun I =>
  mma.run (c I) fun lane => ⟨((s lane).a I).1, (s lane).b.1, ((s lane).a I).2, (s lane).b.2⟩

/-- The loop behind its first load: the next step is loaded before this one is multiplied. -/
def pipeline (mma : Mma value f8) (load : ℕ → Option (Fin 32 → KStep MT)) (cur : Fin 32 → KStep MT) (c : Acc R MT) :
    List ℕ → Option (Acc R MT)
  | [] => some (mmaAll mma c cur)
  | k0 :: ks => do
    let nxt ← load k0
    pipeline mma load nxt (mmaAll mma c cur) ks

/-- The operands of a launch: the codes and scales of the rows and of the columns. -/
structure Operands where
  aRows : ℕ
  code : ℕ → ℕ → ℕ
  sf : ℕ → ℕ → ℕ
  wCode : ℕ → ℕ → ℕ
  wSf : ℕ → ℕ → ℕ

/-- A row behind the last one is zero. -/
def Operands.row (o : Operands) (r k : ℕ) : ℕ := if r < o.aRows then o.code r k else 0

/-- So are its scales. -/
def Operands.rowSf (o : Operands) (r kb : ℕ) : ℕ := if r < o.aRows then o.sf r kb else 0

/-- A product. -/
def Operands.term (value f8 : ℕ → R) (o : Operands) (row col k : ℕ) : R :=
  value (o.row row k) * f8 (o.rowSf row (k / 16)) * value (o.wCode col k) * f8 (o.wSf col (k / 16))

/-- The registers of the warp are the fragments of the step at `k0`. -/
structure StepHolds (o : Operands) (n0 k0 : ℕ) (s : Fin 32 → KStep MT) : Prop where
  a : ∀ (lane : Fin 32) (I : Fin MT) (r : Fin 4), ∀ j < 8, nib (((s lane).a I).1 r) j =
    o.row (16 * I + (lane / 4 + 8 * (r.val % 2))) (k0 + (8 * (lane % 4) + j + 32 * (r.val / 2)))
  sfa : ∀ (lane : Fin 32) (I : Fin MT), ∀ b < 4,
    ((s lane).a I).2 b = o.rowSf (16 * I + (8 * (lane % 2) + lane / 4)) (k0 / 16 + b)
  b : ∀ (lane : Fin 32) (r : Fin 2), ∀ j < 8,
    nib ((s lane).b.1 r) j = o.wCode (n0 + lane / 4) (k0 + (8 * (lane % 4) + j + 32 * r))
  sfb : ∀ lane : Fin 32, ∀ b < 4, (s lane).b.2 b = o.wSf (n0 + lane / 4) (k0 / 16 + b)

/-- The products of a step are added. -/
lemma StepHolds.mmaAll {o : Operands} {n0 k0 : ℕ} {s : Fin 32 → KStep MT} (h : StepHolds o n0 k0 s) (hk0 : 16 ∣ k0)
    (mma : Mma value f8) (c : Acc R MT) (I : Fin MT) (lane : Fin 32) (i : Fin 4) :
    NvGemm.mmaAll mma c s I lane i = c I lane i + ∑ k ∈ range 64,
      o.term value f8 (16 * I + (lane / 4 + 8 * (i / 2))) (n0 + (2 * (lane % 4) + i % 2)) (k0 + k) := by
  have hfrag : Fragments value f8 (fun lane => ⟨((s lane).a I).1, (s lane).b.1, ((s lane).a I).2, (s lane).b.2⟩)
      (fun row k => value (o.row (16 * I + row) (k0 + k))) (fun row b => f8 (o.rowSf (16 * I + row) (k0 / 16 + b)))
      (fun col k => value (o.wCode (n0 + col) (k0 + k))) (fun col b => f8 (o.wSf (n0 + col) (k0 / 16 + b))) := by
    refine ⟨fun lane r j hj => ?_, fun lane b hb => ?_, fun lane r j hj => ?_, fun lane b hb => ?_⟩
    · exact congrArg value (h.a lane I r j hj).symm
    · exact congrArg f8 (h.sfa lane I b hb).symm
    · exact congrArg value (h.b lane r j hj).symm
    · exact congrArg f8 (h.sfb lane b hb).symm
  rw [NvGemm.mmaAll, mma.spec _ _ _ _ _ _ hfrag]
  refine congrArg (c I lane i + ·) (sum_congr rfl fun k _ => ?_)
  have hkb : k0 / 16 + k / 16 = (k0 + k) / 16 := by omega
  rw [Operands.term, hkb]

/-- The loop over steps that hold. -/
lemma pipeline_eq {o : Operands} {n0 : ℕ} (mma : Mma value f8) {load : ℕ → Option (Fin 32 → KStep MT)} {ks : List ℕ}
    (hload : ∀ k0 ∈ ks, 16 ∣ k0 ∧ ∃ s, load k0 = some s ∧ StepHolds o n0 k0 s) {k0 : ℕ} (hk0 : 16 ∣ k0)
    {cur : Fin 32 → KStep MT} (hcur : StepHolds o n0 k0 cur) (c : Acc R MT) :
    ∃ c', pipeline mma load cur c ks = some c' ∧ ∀ I lane i, c' I lane i = c I lane i +
      ((k0 :: ks).map fun k0 => ∑ k ∈ range 64,
        o.term value f8 (16 * I + (lane / 4 + 8 * (i / 2))) (n0 + (2 * (lane % 4) + i % 2)) (k0 + k)).sum := by
  induction ks generalizing k0 cur c with
  | nil => exact ⟨_, rfl, fun I lane i => by rw [hcur.mmaAll hk0, List.map_singleton, List.sum_singleton]⟩
  | cons k1 ks ih =>
    obtain ⟨hk1, s, hs, hholds⟩ := hload k1 List.mem_cons_self
    obtain ⟨c', hrun, hsum⟩ := ih (fun k hk => hload k (List.mem_cons_of_mem _ hk)) hk1 hholds (mmaAll mma c cur)
    refine ⟨c', ?_, fun I lane i => ?_⟩
    · rw [pipeline, hs]
      exact hrun
    · rw [hsum I lane i, hcur.mmaAll hk0, add_assoc]
      exact congrArg (c I lane i + ·) List.sum_cons.symm

/-- The sum over the steps is the sum over all k. -/
lemma sum_steps (F : ℕ → R) {b e : ℕ} (h : 64 ∣ e - b) :
    ((steps b e 64).map fun k0 => ∑ k ∈ range 64, F (k0 + k)).sum = ∑ k ∈ Ico b e, F k := by
  obtain ⟨blocks, hblocks⟩ := h
  have hcount : cdiv (e - b) 64 = blocks := by
    rw [hblocks, cdiv]
    omega
  rw [steps, hcount, List.map_map, sum_Ico_eq_sum_range, hblocks, ← sum_blocks (fun k => F (b + k)), ← sum_map_range]
  refine congrArg List.sum (List.map_congr_left fun j _ => sum_congr rfl fun k _ => congrArg F ?_)
  dsimp only
  omega

/-- The accumulators behind the loop from its first step on. -/
lemma loop_eq {o : Operands} {n0 b e : ℕ} (mma : Mma value f8) {load : ℕ → Option (Fin 32 → KStep MT)} (hbe : b < e)
    (hb : 64 ∣ b) (he : 64 ∣ e) (hload : ∀ k0, 64 ∣ k0 → b < k0 → k0 < e → ∃ s, load k0 = some s ∧ StepHolds o n0 k0 s)
    {cur : Fin 32 → KStep MT} (hcur : StepHolds o n0 b cur) :
    ∃ c, pipeline mma load cur (fun _ _ _ => 0) (steps (b + 64) e 64) = some c ∧ ∀ I lane i, c I lane i =
      ∑ k ∈ Ico b e, o.term value f8 (16 * I + (lane / 4 + 8 * (i / 2))) (n0 + (2 * (lane % 4) + i % 2)) k := by
  have hsteps : ∀ k0 ∈ steps (b + 64) e 64, 16 ∣ k0 ∧ ∃ s, load k0 = some s ∧ StepHolds o n0 k0 s := fun k0 hk0 => by
    obtain ⟨j, hj, hlt⟩ := (mem_steps_iff (show 0 < 64 by decide)).mp hk0
    exact ⟨by omega, hload k0 (by omega) (by omega) hlt⟩
  obtain ⟨c, hrun, hc⟩ := pipeline_eq mma hsteps (by omega) hcur fun _ _ _ => 0
  refine ⟨c, hrun, fun I lane i => ?_⟩
  rw [hc, zero_add, ← steps_cons (by decide) hbe]
  exact sum_steps (o.term value f8 _ _) (Nat.dvd_sub he hb)

end SuffixHybrid.NvGemm
