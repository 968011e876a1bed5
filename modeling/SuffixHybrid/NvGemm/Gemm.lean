import SuffixHybrid.NvGemm.Smem
import SuffixHybrid.NvGemm.Warp

/-!
# The tile of a warp

`gemm_body` and `gemm_fused` from their first load to the stores of the tile. Offsets are computed in 32 bits. Where
they fit (`Args.Fits`), all loads are inside of their buffers, each element is stored by one lane, and what is stored
is the sum of the products over the k of the split, for each source of the activations (`gemm_exact`). The quantisation
of a block of the activation is a parameter, as the instruction is; the copy of it that the first column tile leaves in
global memory and the hints to prefetch are not modelled.
-/

namespace SuffixHybrid.NvGemm
open Finset Lib

/-! ## The kernels -/

/-- The arguments of a launch. `quant` has the codes and the scale that `quant_block` makes of a block of a row, `smem`
is what shared memory has before the launch. -/
structure Args where
  m : ℕ
  n : ℕ
  k : ℕ
  aStride : ℕ
  aRows : ℕ
  asfMode : ℕ
  kps : ℕ
  flags : ℕ
  aq : Buf
  asf : Buf
  w : Buf
  wsf : Buf
  quant : ℕ → ℕ → (ℕ → Fin 16) × Fin 256
  smem : Buf

variable {R : Type} [CommRing R] {value f8 : ℕ → R} {MT : ℕ}

/-- What a lane stores at once: two elements of a row. -/
structure Pair (R : Type) where
  row : ℕ
  col : ℕ
  v0 : R
  v1 : R

/-- The elements. -/
def Pair.cells (p : Pair R) : List (ℕ × ℕ) := [(p.row, p.col), (p.row, p.col + 1)]

/-- `store_tile`. -/
def storePairs (m n0 : ℕ) (c : Acc R MT) (lane : Fin 32) : List (Pair R) :=
  let g := lane.val / 4
  let col := n0 + 2 * (lane.val % 4)
  let store (row : ℕ) (v0 v1 : R) : List (Pair R) := if row < m then [⟨row, col, v0, v1⟩] else []
  let d (I : Fin MT) (i : ℕ) : R := c I lane (wrapped regs_pos i)
  (List.finRange MT).flatMap fun I : Fin MT =>
    store (16 * I.val + g) (d I 0) (d I 1) ++ store (16 * I.val + g + 8) (d I 2) (d I 3)

/-- Where the elements go: the partial sums, or the output with `alpha` and `f32_to_bf16`. -/
inductive Dest (R : Type)
  | partials
  | out (stride : ℕ) (alpha : R) (bf16 : R → R)

/-- The place of an element. -/
def Dest.place (d : Dest R) (m n split row col : ℕ) : ℕ :=
  match d with
  | partials => u32 ((split * m + row) * n + col)
  | out stride _ _ => u32 (row * stride + col)

/-- The value that is stored for a sum. -/
def Dest.cast : Dest R → R → R
  | partials, v => v
  | out _ alpha bf16, v => bf16 (v * alpha)

/-- The stores of a pair. -/
def Dest.put (d : Dest R) (m n split : ℕ) (p : Pair R) : List (ℕ × R) :=
  let q := d.place m n split p.row p.col
  [(q, d.cast p.v0), (q + 1, d.cast p.v1)]

/-- The byte `b` of a block. -/
def packed (q : ℕ → Fin 16) (b : ℕ) : ℕ := (q (2 * b)).val ||| (q (2 * b + 1)).val <<< 4

/-- The first column of a warp. -/
def firstCol (x warp : ℕ) : ℕ := u32 ((x * 4 + warp) * 8)

namespace Args
variable (A : Args)

def nkb : ℕ := A.k / 16

def kbPad : ℕ := (A.nkb + 3) / 4 * 4

def kBegin (split : ℕ) : ℕ := u32 (split * A.kps * 64)

def kEnd (split : ℕ) : ℕ :=
  if A.k < u32 (A.kBegin split + A.kps * 64) then A.k else u32 (A.kBegin split + A.kps * 64)

/-- The row of the weight of a lane. -/
def wRow (c lane : ℕ) : ℕ := u32 (u32 (c + lane / 4) * (A.k / 2))

def astr : ℕ := A.kps * 32 + 16

def sstr : ℕ := 4 * (A.kps ||| 1)

/-- The stores of a block, byte by byte: its codes and its scale. -/
def putBlock (split r j : ℕ) : List (ℕ × ℕ) :=
  let q := A.quant r (A.kBegin split / 16 + j)
  let d := 16 + u32 (r * A.astr + 8 * j)
  ((List.range 8).map fun b => (d + b, packed q.1 b)) ++ [(16 + u32 (A.m * A.astr) + u32 (r * A.sstr + j), q.2.val)]

/-- The stores of a thread in the prologue. -/
def quantise (split tid : ℕ) : List (ℕ × ℕ) :=
  let nblk := u32 (2 ^ 32 + A.kEnd split - A.kBegin split) / 16
  (steps tid (u32 (A.m * nblk)) 128).flatMap fun i => A.putBlock split (i / nblk) (i % nblk)

/-- Shared memory behind the barrier. -/
def smemAfter (order : List (ℕ × ℕ)) : Buf := ⟨A.smem.size, storeAll A.smem.byte order⟩

/-- The source of the k loop. -/
def src (order : List (ℕ × ℕ)) (split : ℕ) : ASrc :=
  if A.flags &&& FUSE_QUANT ≠ 0 then
    ⟨A.smemAfter order, 16, A.astr, A.m, A.kBegin split, A.smemAfter order, 16 + u32 (A.m * A.astr), false, A.sstr, A.kbPad⟩
  else plainSrc A.aq A.aStride A.aRows A.asf A.asfMode A.nkb A.kbPad

end Args

/-- The loop of `gemm_body`. -/
def bodyLoop (mma : Mma value f8) (load : ℕ → Option (Fin 32 → KStep MT)) (kBegin kEnd : ℕ) : Option (Acc R MT) :=
  if kBegin < kEnd then do
    let cur ← load kBegin
    pipeline mma load cur (fun _ _ _ => 0) (steps (kBegin + 64) kEnd 64)
  else some fun _ _ _ => 0

/-- `gemm_body`: what the lanes of a warp store. -/
def gemmBody (mma : Mma value f8) (MT : ℕ) (A : Args) (x split warp : ℕ) : Option (Fin 32 → List (Pair R)) :=
  let n0 := firstCol x warp
  if A.n ≤ n0 then some fun _ => []
  else do
    let load (k0 : ℕ) : Option (Fin 32 → KStep MT) := gather fun lane =>
      loadStep MT A.aq A.aStride A.aRows A.w (A.wRow n0 lane) A.asf A.wsf A.asfMode A.nkb A.kbPad n0 k0 lane
    let c ← bodyLoop mma load (A.kBegin split) (A.kEnd split)
    some (storePairs A.m n0 c)

/-- `k_loop`. -/
def kLoop (mma : Mma value f8) (kBegin kEnd : ℕ) (src : ASrc) (w : Buf) (wRow : Fin 32 → ℕ) (wsf : Buf) (n0 : ℕ)
    (b0 : Fin 32 → (Fin 2 → Word) × Word) : Option (Acc R MT) :=
  if kBegin < kEnd then do
    let a ← gather fun lane : Fin 32 => loadA MT src kBegin lane
    let load (k0 : ℕ) : Option (Fin 32 → KStep MT) := gather fun lane => loadStepSrc MT src w (wRow lane) wsf n0 k0 lane
    pipeline mma load (fun lane => ⟨a lane, b0 lane⟩) (fun _ _ _ => 0) (steps (kBegin + 64) kEnd 64)
  else some fun _ _ _ => 0

/-- The first fragment of the weight, which is loaded before the prologue. -/
def firstB (A : Args) (n0 split : ℕ) : Option (Fin 32 → (Fin 2 → Word) × Word) :=
  if n0 < A.n ∧ A.kBegin split < A.kEnd split then
    gather fun lane : Fin 32 =>
      loadB A.w (A.wRow (if n0 < A.n then n0 else 0) lane) A.wsf A.kbPad n0 (A.kBegin split) lane
  else some fun _ => (fun _ _ => 0, fun _ => 0)

/-- `gemm_fused` to the stores of the tile, which the fixup follows; `order` are the stores of the prologue. -/
def gemmFused (mma : Mma value f8) (MT : ℕ) (A : Args) (order : ℕ → ℕ → List (ℕ × ℕ)) (x split warp : ℕ) :
    Option (Fin 32 → List (Pair R)) := do
  let n0 := firstCol x warp
  let b0 ← firstB A n0 split
  if n0 < A.n then
    let wRow (lane : Fin 32) := A.wRow n0 lane
    let c : Acc R MT ← kLoop mma (A.kBegin split) (A.kEnd split) (A.src (order x split) split) A.w wRow A.wsf n0 b0
    some (storePairs A.m n0 c)
  else some fun _ => []

/-! ## Its purpose -/

namespace Args
variable (A : Args)

/-- The shapes of a launch and the sizes of its buffers. -/
structure Valid (MT : ℕ) : Prop where
  rows : A.m ≤ 16 * MT
  cols : 8 ∣ A.n
  steps : 64 ∣ A.k
  kps : 0 < A.kps
  aq : ∀ r < A.aRows, r * A.aStride + A.k / 2 ≤ A.aq.size
  asf : (if A.asfMode = 0 then A.aRows * A.nkb else paddedSize A.aRows A.nkb) ≤ A.asf.size
  w : A.n * (A.k / 2) ≤ A.w.size
  wsf : paddedSize A.n A.nkb ≤ A.wsf.size
  smem : A.flags &&& FUSE_QUANT ≠ 0 → 16 + A.m * A.astr + A.m * A.sstr ≤ A.smem.size

/-- Its offsets fit into 32 bits. -/
structure Fits (splits : ℕ) : Prop where
  n : A.n + 32 ≤ 2 ^ 32
  k : A.k < 2 ^ 32
  splits : splits * A.kps * 64 < 2 ^ 32
  aq : ∀ r < A.aRows, r * A.aStride < 2 ^ 32
  asf : (if A.asfMode = 0 then A.aRows * A.nkb else paddedSize A.aRows A.nkb) ≤ 2 ^ 32
  w : A.n * (A.k / 2) ≤ 2 ^ 32
  wsf : paddedSize A.n A.nkb ≤ 2 ^ 32
  smem : A.flags &&& FUSE_QUANT ≠ 0 → 16 + A.m * A.astr + A.m * A.sstr ≤ 2 ^ 32

/-- What the buffers have: rows of codes, and scales in rows or swizzled. -/
def operands : Operands where
  aRows := A.aRows
  code r k := codeAt A.aq (r * A.aStride) k
  sf r kb := A.asf.byte (if A.asfMode = 0 then r * A.nkb + kb else Py.sfOffset r kb A.kbPad)
  wCode c k := codeAt A.w (c * (A.k / 2)) k
  wSf c kb := A.wsf.byte (Py.sfOffset c kb A.kbPad)

/-- The operands of `gemm_fused`, which has the rows of the activation if it quantises. -/
def fusedOperands : Operands :=
  if A.flags &&& FUSE_QUANT ≠ 0 then
    { A.operands with
      aRows := A.m
      code := fun r k => ((A.quant r (k / 16)).1 (k % 16)).val
      sf := fun r kb => (A.quant r kb).2.val }
  else A.operands

/-- The stores of the prologues, in any order; a split begins inside of the k. -/
def Prologue (splits : ℕ) (order : ℕ → ℕ → List (ℕ × ℕ)) : Prop :=
  ∀ split < splits, split * A.kps * 64 ≤ A.k ∧ ∀ x e, e ∈ order x split ↔ ∃ tid < 128, e ∈ A.quantise split tid

/-- The sum of a split for an element. -/
def dot (value f8 : ℕ → R) (o : Operands) (split row col : ℕ) : R :=
  ∑ k ∈ Ico (split * A.kps * 64) (min A.k ((split + 1) * A.kps * 64)), o.term value f8 row col k

end Args

/-- The places of the elements fit into 32 bits; one split stores to the output. -/
def Dest.Fits (d : Dest R) (m n splits : ℕ) : Prop :=
  match d with
  | partials => splits * m * n ≤ 2 ^ 32
  | out stride _ _ => splits = 1 ∧ n ≤ stride ∧ m * stride ≤ 2 ^ 32

/-- The warps of a launch load inside of the buffers and store these pairs: each element once, with the sum of its
split, which is there behind all stores in any order. -/
structure Exact (value f8 : ℕ → R) (A : Args) (o : Operands) (d : Dest R) (splits : ℕ)
    (run : ℕ → ℕ → ℕ → Option (Fin 32 → List (Pair R))) (stores : ℕ → ℕ → ℕ → List (Pair R)) : Prop where
  loads : ∀ x < cdiv A.n 32, ∀ split < splits, ∀ warp < 4,
    run x split warp = some fun lane => stores x split (warp * 32 + lane.val)
  once : ∀ split < splits,
    StoredOnce A.m A.n (cdiv A.n 32) 128 fun x tid => (stores x split tid).flatMap Pair.cells
  sums : ∀ x < cdiv A.n 32, ∀ split < splits, ∀ tid < 128, ∀ p ∈ stores x split tid,
    p.v0 = A.dot value f8 o split p.row p.col ∧ p.v1 = A.dot value f8 o split p.row (p.col + 1)
  left : ∀ mem l, (∀ e, e ∈ l ↔ ∃ x < cdiv A.n 32, ∃ split < splits, ∃ tid < 128, ∃ p ∈ stores x split tid,
      e ∈ d.put A.m A.n split p) → ∀ split < splits, ∀ row < A.m, ∀ col < A.n,
    storeAll mem l (d.place A.m A.n split row col) = d.cast (A.dot value f8 o split row col)

/-! ## Sources -/

lemma codeAt_add (p : Buf) (row : ℕ) {k0 : ℕ} (h : 2 ∣ k0) (k : ℕ) : codeAt p (row + k0 / 2) k = codeAt p row (k0 + k) := by
  have hdiv : row + k0 / 2 + k / 2 = row + (k0 + k) / 2 := by omega
  have hmod : k % 2 = (k0 + k) % 2 := by omega
  rw [codeAt, codeAt, hdiv, hmod]

/-- The scales of a step are inside of the padded size, where the kernel looks. -/
lemma swizzled_step {r c row k0 : ℕ} (hfit : paddedSize r c ≤ 2 ^ 32) (hrow : row < r) (hk0 : 64 ∣ k0)
    (hstep : k0 + 64 ≤ 16 * c) : sfOffset row (k0 / 16) (cdiv c 4 * 4) + 4 ≤ paddedSize r c ∧
      ∀ b < 4, sfOffset row (k0 / 16) (cdiv c 4 * 4) + b = Py.sfOffset row (k0 / 16 + b) (cdiv c 4 * 4) := by
  have hb : ∀ b < 4, Py.sfOffset row (k0 / 16 + b) (cdiv c 4 * 4) = Py.sfOffset row (k0 / 16) (cdiv c 4 * 4) + b :=
    fun b hb => (Py.sfOffset_step row (by omega) hb).1
  rw [sfOffset_eq hfit hrow (by omega)]
  refine ⟨?_, fun b h => (hb b h).symm⟩
  have hlast := Py.sfOffset_lt hrow (show k0 / 16 + 3 < c by omega)
  rw [hb 3 (by decide)] at hlast
  omega

namespace Args
variable {A : Args} {splits : ℕ} {split k0 : ℕ}

lemma kbPad_eq (A : Args) : A.kbPad = cdiv A.nkb 4 * 4 := rfl

lemma kBegin_eq (hf : A.Fits splits) (hs : split < splits) : A.kBegin split = split * A.kps * 64 := by
  have hle : split * A.kps * 64 ≤ splits * A.kps * 64 :=
    Nat.mul_le_mul_right _ (Nat.mul_le_mul_right _ hs.le)
  exact u32_of_lt (hle.trans_lt hf.splits)

lemma kEnd_eq (hf : A.Fits splits) (hs : split < splits) : A.kEnd split = min A.k ((split + 1) * A.kps * 64) := by
  have hle : (split + 1) * A.kps * 64 ≤ splits * A.kps * 64 :=
    Nat.mul_le_mul_right _ (Nat.mul_le_mul_right _ hs)
  have hnext : split * A.kps * 64 + A.kps * 64 = (split + 1) * A.kps * 64 := by ring
  rw [kEnd, kBegin_eq hf hs, hnext, u32_of_lt (hle.trans_lt hf.splits)]
  split_ifs <;> omega

/-- The source in global memory. -/
lemma reads_plain {MT : ℕ} (hv : A.Valid MT) (hf : A.Fits splits) (hk0 : 64 ∣ k0) (hstep : k0 + 64 ≤ A.k) :
    ASrc.Reads (plainSrc A.aq A.aStride A.aRows A.asf A.asfMode A.nkb A.kbPad) k0 A.operands.code A.operands.sf := by
  have hk := hf.k
  have hsteps := hv.steps
  have hnkb : k0 + 64 ≤ 16 * A.nkb := by
    unfold nkb
    omega
  have hrow : ∀ r < A.aRows, u32 (r * A.aStride) = r * A.aStride := fun r hr => u32_of_lt (hf.aq r hr)
  have hsf : ∀ r < A.aRows, (plainSrc A.aq A.aStride A.aRows A.asf A.asfMode A.nkb A.kbPad).sfPlace r k0 + 4 ≤ A.asf.size ∧
      ∀ b < 4, A.asf.byte ((plainSrc A.aq A.aStride A.aRows A.asf A.asfMode A.nkb A.kbPad).sfPlace r k0 + b) =
        A.operands.sf r (k0 / 16 + b) := fun r hr => by
    have hasf := hv.asf
    have hfit := hf.asf
    by_cases hmode : A.asfMode = 0
    · have hplace : r * A.nkb + A.nkb ≤ A.aRows * A.nkb := by
        rw [← Nat.succ_mul]
        exact Nat.mul_le_mul_right _ hr
      simp only [if_pos hmode] at hasf hfit
      have hoff : (plainSrc A.aq A.aStride A.aRows A.asf A.asfMode A.nkb A.kbPad).sfPlace r k0 = r * A.nkb + k0 / 16 := by
        simp only [ASrc.sfPlace, plainSrc, hmode, ne_eq, not_true_eq_false, decide_false, Bool.false_eq_true, if_false,
          Nat.zero_add, Nat.zero_div, Nat.sub_zero]
        exact u32_of_lt (by omega)
      rw [hoff]
      refine ⟨by omega, fun b _ => ?_⟩
      simp only [operands, if_pos hmode, Nat.add_assoc]
    · simp only [if_neg hmode] at hasf hfit
      have hoff : (plainSrc A.aq A.aStride A.aRows A.asf A.asfMode A.nkb A.kbPad).sfPlace r k0 =
          sfOffset r (k0 / 16) (cdiv A.nkb 4 * 4) := by
        simp only [ASrc.sfPlace, plainSrc, hmode, ne_eq, not_false_eq_true, decide_true, if_true, Nat.zero_add, kbPad_eq]
      obtain ⟨hin, hb⟩ := swizzled_step hfit hr hk0 hnkb
      rw [hoff]
      refine ⟨by omega, fun b hlt => ?_⟩
      simp only [operands, if_neg hmode, hb b hlt, kbPad_eq]
  refine ⟨?_, fun r hr => ?_, fun r hr k _ => ?_, fun r hr => (hsf r hr).1, fun r hr => (hsf r hr).2⟩
  · change (k0 - 0) / 2 + 32 ≤ 2 ^ 32
    omega
  · have hin := hv.aq r hr
    change 0 + (u32 (r * A.aStride) + (k0 - 0) / 2) + 32 ≤ A.aq.size
    rw [hrow r hr]
    omega
  · change codeAt A.aq (0 + (u32 (r * A.aStride) + (k0 - 0) / 2)) k = _
    rw [hrow r hr, Nat.sub_zero, Nat.zero_add]
    exact codeAt_add A.aq _ (by omega) k

/-- The elements of a loop over all threads. -/
lemma exists_thread {N : ℕ} {P : ℕ → Prop} : (∃ tid < 128, ∃ i ∈ steps tid N 128, P i) ↔ ∃ i < N, P i := by
  constructor
  · rintro ⟨tid, -, i, hi, h⟩
    obtain ⟨-, -, hlt⟩ := (mem_steps_iff (by decide)).mp hi
    exact ⟨i, hlt, h⟩
  · rintro ⟨i, hlt, h⟩
    exact ⟨i % 128, Nat.mod_lt i (by decide), i, (mem_steps_iff (by decide)).mpr ⟨i / 128, by omega, hlt⟩, h⟩

lemma exists_block {m nblk : ℕ} (P : ℕ → ℕ → Prop) :
    (∃ i < m * nblk, P (i / nblk) (i % nblk)) ↔ ∃ r < m, ∃ j < nblk, P r j := by
  constructor
  · rintro ⟨i, hi, h⟩
    have hpos : 0 < nblk := Nat.pos_of_mul_pos_left (Nat.zero_lt_of_lt hi)
    exact ⟨_, Nat.div_lt_of_lt_mul (Nat.mul_comm m nblk ▸ hi), _, Nat.mod_lt i hpos, h⟩
  · rintro ⟨r, hr, j, hj, h⟩
    refine ⟨r * nblk + j, place_lt hr hj, ?_⟩
    rw [Nat.mul_add_mod_of_lt hj, Nat.mul_comm, Nat.mul_add_div (Nat.zero_lt_of_lt hj), Nat.div_eq_of_lt hj]
    exact h

lemma packed_nibbles (q : ℕ → Fin 16) (b : ℕ) : packed q b % 16 = q (2 * b) ∧ packed q b / 16 = q (2 * b + 1) := by
  have hlo := (q (2 * b)).isLt
  have hor : packed q b = (q (2 * b + 1)).val <<< 4 + q (2 * b) := by
    rw [packed, Nat.or_comm, ← Nat.shiftLeft_add_eq_or_of_lt hlo]
  rw [hor, Nat.shiftLeft_eq]
  omega

/-- The blocks of a split. -/
lemma nblk_eq (hf : A.Fits splits) (hs : split < splits) (hb : split * A.kps * 64 ≤ A.k) :
    u32 (2 ^ 32 + A.kEnd split - A.kBegin split) = A.kEnd split - A.kBegin split ∧
      A.kBegin split ≤ A.kEnd split ∧ A.kEnd split ≤ A.kBegin split + A.kps * 64 := by
  have hk := hf.k
  have hnext : (split + 1) * A.kps * 64 = split * A.kps * 64 + A.kps * 64 := by ring
  rw [kEnd_eq hf hs, kBegin_eq hf hs, hnext, u32]
  omega

/-- The bytes that the prologue stores. -/
lemma mem_prologue (hf : A.Fits splits) (hq : A.flags &&& FUSE_QUANT ≠ 0) (hs : split < splits)
    (hb : split * A.kps * 64 ≤ A.k) {e : ℕ × ℕ} : (∃ tid < 128, e ∈ A.quantise split tid) ↔
      ∃ r < A.m, ∃ j < (A.kEnd split - A.kBegin split) / 16,
        (∃ b < 8, e = (16 + (r * A.astr + (8 * j + b)), packed (A.quant r (A.kBegin split / 16 + j)).1 b)) ∨
          e = (16 + A.m * A.astr + (r * A.sstr + j), (A.quant r (A.kBegin split / 16 + j)).2.val) := by
  obtain ⟨hu, -, hle⟩ := nblk_eq hf hs hb
  have hfit := hf.smem hq
  have hstr : 4 * A.kps ≤ A.sstr := Nat.mul_le_mul_left 4 Nat.left_le_or
  have hnblk : (A.kEnd split - A.kBegin split) / 16 ≤ 4 * A.kps := by omega
  unfold quantise
  dsimp only
  rw [hu]
  generalize (A.kEnd split - A.kBegin split) / 16 = nblk at hnblk
  have htotal : A.m * nblk ≤ A.m * A.sstr := Nat.mul_le_mul_left _ (hnblk.trans hstr)
  rw [u32_of_lt (show A.m * nblk < 2 ^ 32 by omega)]
  simp only [List.mem_flatMap]
  rw [exists_thread, exists_block fun r j => e ∈ A.putBlock split r j]
  refine exists_congr fun r => and_congr_right fun hr => exists_congr fun j => and_congr_right fun hj => ?_
  have hcode : r * A.astr + A.astr ≤ A.m * A.astr := by
    rw [← Nat.succ_mul]
    exact Nat.mul_le_mul_right _ hr
  have hscale : r * A.sstr + A.sstr ≤ A.m * A.sstr := by
    rw [← Nat.succ_mul]
    exact Nat.mul_le_mul_right _ hr
  have hastr : A.astr = A.kps * 32 + 16 := rfl
  unfold putBlock
  dsimp only
  rw [u32_of_lt (show A.m * A.astr < 2 ^ 32 by omega), u32_of_lt (show r * A.astr + 8 * j < 2 ^ 32 by omega),
    u32_of_lt (show r * A.sstr + j < 2 ^ 32 by omega)]
  simp only [List.mem_append, List.mem_map, List.mem_range, List.mem_singleton, Nat.add_assoc, eq_comm]

/-- What shared memory has behind the barrier. -/
lemma smem_prologue (hf : A.Fits splits) (hq : A.flags &&& FUSE_QUANT ≠ 0) {order : ℕ → ℕ → List (ℕ × ℕ)}
    (ho : A.Prologue splits order) (hs : split < splits) (x : ℕ) {r j : ℕ} (hr : r < A.m)
    (hj : j < (A.kEnd split - A.kBegin split) / 16) :
    (∀ b < 8, (A.smemAfter (order x split)).byte (16 + (r * A.astr + (8 * j + b))) =
      packed (A.quant r (A.kBegin split / 16 + j)).1 b) ∧
    (A.smemAfter (order x split)).byte (16 + A.m * A.astr + (r * A.sstr + j)) =
      (A.quant r (A.kBegin split / 16 + j)).2.val := by
  obtain ⟨hb, hmem⟩ := ho split hs
  obtain ⟨-, -, hle⟩ := nblk_eq hf hs hb
  have hstores : ∀ e, e ∈ order x split ↔ _ := fun e => (hmem x e).trans (mem_prologue hf hq hs hb)
  have hstr : 4 * A.kps ≤ A.sstr := Nat.mul_le_mul_left 4 Nat.left_le_or
  have hastr : A.astr = A.kps * 32 + 16 := rfl
  have hnblk : (A.kEnd split - A.kBegin split) / 16 ≤ 4 * A.kps := by omega
  generalize (A.kEnd split - A.kBegin split) / 16 = nblk at hj hnblk hstores
  have hcode : ∀ r < A.m, r * A.astr + A.astr ≤ A.m * A.astr := fun r hr => by
    rw [← Nat.succ_mul]
    exact Nat.mul_le_mul_right _ hr
  refine ⟨fun b hb8 => storeAll_of_agree _ (fun e he hplace => ?_) (.inr ⟨_, (hstores _).mpr ⟨r, hr, j, hj, .inl ⟨b, hb8, rfl⟩⟩,
    rfl⟩), storeAll_of_agree _ (fun e he hplace => ?_) (.inr ⟨_, (hstores _).mpr ⟨r, hr, j, hj, .inr rfl⟩, rfl⟩)⟩
  · obtain ⟨r', hr', j', hj', ⟨b', hb', rfl⟩ | rfl⟩ := (hstores e).mp he
    · obtain ⟨rfl, hin⟩ := Launch.mul_add_inj (by omega) (by omega) (Nat.add_left_cancel hplace)
      obtain ⟨rfl, rfl⟩ : j' = j ∧ b' = b := by omega
      rfl
    · have := hcode r hr
      dsimp only at hplace
      omega
  · obtain ⟨r', hr', j', hj', ⟨b', hb', rfl⟩ | rfl⟩ := (hstores e).mp he
    · have := hcode r' hr'
      dsimp only at hplace
      omega
    · obtain ⟨rfl, rfl⟩ := Launch.mul_add_inj (by omega) (by omega) (Nat.add_left_cancel hplace)
      rfl

/-- The source in shared memory. -/
lemma reads_smem {MT : ℕ} (hv : A.Valid MT) (hf : A.Fits splits) (hq : A.flags &&& FUSE_QUANT ≠ 0)
    {order : ℕ → ℕ → List (ℕ × ℕ)} (ho : A.Prologue splits order) (hs : split < splits) (x : ℕ) (hk0 : 64 ∣ k0)
    (hlo : A.kBegin split ≤ k0) (hhi : k0 + 64 ≤ A.kEnd split) :
    ASrc.Reads (A.src (order x split) split) k0 A.fusedOperands.code A.fusedOperands.sf := by
  obtain ⟨-, -, hle⟩ := nblk_eq hf hs (ho split hs).1
  have hsize := hv.smem hq
  have hfit := hf.smem hq
  have hstr : 4 * A.kps ≤ A.sstr := Nat.mul_le_mul_left 4 Nat.left_le_or
  have hastr : A.astr = A.kps * 32 + 16 := rfl
  have hbegin : 64 ∣ A.kBegin split := by
    rw [kBegin_eq hf hs]
    exact Nat.dvd_mul_left 64 _
  have hcode : ∀ r < A.m, r * A.astr + A.astr ≤ A.m * A.astr := fun r hr => by
    rw [← Nat.succ_mul]
    exact Nat.mul_le_mul_right _ hr
  have hscale : ∀ r < A.m, r * A.sstr + A.sstr ≤ A.m * A.sstr := fun r hr => by
    rw [← Nat.succ_mul]
    exact Nat.mul_le_mul_right _ hr
  have hops : A.fusedOperands = { A.operands with
      aRows := A.m
      code := fun r k => ((A.quant r (k / 16)).1 (k % 16)).val
      sf := fun r kb => (A.quant r kb).2.val } := if_pos hq
  have hplace : ∀ r < A.m, 16 + u32 (A.m * A.astr) + u32 (r * A.sstr + k0 / 16 - A.kBegin split / 16) =
      16 + A.m * A.astr + (r * A.sstr + (k0 - A.kBegin split) / 16) := fun r hr => by
    have h := hscale r hr
    have hsub : r * A.sstr + k0 / 16 - A.kBegin split / 16 = r * A.sstr + (k0 - A.kBegin split) / 16 := by omega
    rw [hsub, u32_of_lt (by omega), u32_of_lt (by omega)]
  have hrow : ∀ r < A.m, u32 (r * A.astr) = r * A.astr := fun r hr => u32_of_lt (by
    have := hcode r hr
    omega)
  rw [src, if_pos hq, hops]
  refine ⟨?_, fun r hr => ?_, fun r hr k hk => ?_, fun r hr => ?_, fun r hr b hb => ?_⟩
  · have hk := hf.k
    have hend : A.kEnd split ≤ A.k := (kEnd_eq hf hs).trans_le (min_le_left _ _)
    dsimp only
    omega
  · have := hcode r hr
    change 16 + (u32 (r * A.astr) + (k0 - A.kBegin split) / 2) + 32 ≤ A.smem.size
    rw [hrow r hr]
    omega
  · dsimp only
    rw [hrow r hr]
    have hj : (k0 - A.kBegin split) / 16 + k / 16 < (A.kEnd split - A.kBegin split) / 16 := by omega
    have hbyte := (smem_prologue hf hq ho hs x hr hj).1 (k % 16 / 2) (by omega)
    have hoff : 16 + (r * A.astr + (k0 - A.kBegin split) / 2) + k / 2 =
        16 + (r * A.astr + (8 * ((k0 - A.kBegin split) / 16 + k / 16) + k % 16 / 2)) := by omega
    have hblock : A.kBegin split / 16 + ((k0 - A.kBegin split) / 16 + k / 16) = (k0 + k) / 16 := by omega
    obtain ⟨hlow, hhigh⟩ := packed_nibbles (A.quant r ((k0 + k) / 16)).1 (k % 16 / 2)
    rw [codeAt, hoff, hbyte, hblock]
    split_ifs with hpar
    · have heven : 2 * (k % 16 / 2) = (k0 + k) % 16 := by omega
      rw [hlow, heven]
    · have hodd : 2 * (k % 16 / 2) + 1 = (k0 + k) % 16 := by omega
      rw [hhigh, hodd]
  · have := hscale r hr
    change 16 + u32 (A.m * A.astr) + u32 (r * A.sstr + k0 / 16 - A.kBegin split / 16) + 4 ≤ A.smem.size
    rw [hplace r hr]
    omega
  · change (A.smemAfter (order x split)).byte (16 + u32 (A.m * A.astr) +
      u32 (r * A.sstr + k0 / 16 - A.kBegin split / 16) + b) = (A.quant r (k0 / 16 + b)).2.val
    have hj : (k0 - A.kBegin split) / 16 + b < (A.kEnd split - A.kBegin split) / 16 := by omega
    have hbyte := (smem_prologue hf hq ho hs x hr hj).2
    have hblock : A.kBegin split / 16 + ((k0 - A.kBegin split) / 16 + b) = k0 / 16 + b := by omega
    rw [hplace r hr, Nat.add_assoc, Nat.add_assoc (r * A.sstr), hbyte, hblock]

end Args

end SuffixHybrid.NvGemm
