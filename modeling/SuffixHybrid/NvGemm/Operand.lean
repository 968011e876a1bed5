import Mathlib.Algebra.BigOperators.Group.Finset.Basic
import Mathlib.Algebra.Ring.Basic
import Mathlib.Data.Fin.VecNotation
import Mathlib.Tactic.Ring
import SuffixHybrid.Lib.Grid
import SuffixHybrid.Lib.Slice
import SuffixHybrid.Lib.Word

/-!
# The operands of the GEMM

`swizzle_sf` lays the scales of 128 rows and 4 blocks out as an atom of 512 bytes. `sf_offset` is the place of a
scale in it (`getElem?_swizzleSf`): each scale has its own place (`sfOffset_inj`), inside of the padded size
(`sfOffset_lt`), and the four scales of a step follow each other from a multiple of 4 on (`sfOffset_step`). The kernel
computes it in 32 bits.
-/

namespace SuffixHybrid.NvGemm
open Lib

/-- The length of `rows` rows and `cols` columns, both padded. -/
def paddedSize (rows cols : ℕ) : ℕ := cdiv rows 128 * 128 * (cdiv cols 4 * 4)

/-- `swizzle_sf` of `r` rows and `c` columns. -/
def swizzleSf (r c : ℕ) (sfBits : ℕ → ℕ → ℕ) : List ℕ :=
  let rp := cdiv r 128 * 128
  let cp := cdiv c 4 * 4
  let pad row col := if row < r ∧ col < c then sfBits row col else 0
  -- reshape to (rp / 128, 4, 32, cp / 4, 4) and transpose to the axes 0, 3, 2, 1, 4
  ((List.range (rp / 128)).map fun i0 => ((List.range (cp / 4)).map fun i3 => ((List.range 32).map fun i2 =>
    ((List.range 4).map fun i1 => (List.range 4).map fun i4 =>
      pad ((i0 * 4 + i1) * 32 + i2) (i3 * 4 + i4)).flatten).flatten).flatten).flatten

/-- `sf_offset` of the Python module. -/
def Py.sfOffset (row kb kbPad : ℕ) : ℕ :=
  let atom := row / 128 * (kbPad / 4) + kb / 4
  atom * 512 + row % 32 * 16 + row / 32 % 4 * 4 + kb % 4

/-- `sf_offset` of the kernel. -/
def sfOffset (row kb kbPad : ℕ) : ℕ :=
  let atom := u32 (row / 128 * (kbPad / 4) + kb / 4)
  u32 (atom * 512 + row % 32 * 16 + row / 32 % 4 * 4 + kb % 4)

/-! ## Places -/

lemma length_flatten_of {α : Type} {n : ℕ} {rows : List (List α)} (h : ∀ row ∈ rows, row.length = n) :
    rows.flatten.length = rows.length * n := by
  induction rows with
  | nil => exact (Nat.zero_mul n).symm
  | cons row rows ih =>
    rw [List.flatten_cons, List.length_append, List.length_cons, ih fun r hr => h r (List.mem_cons_of_mem _ hr),
      h row List.mem_cons_self, Nat.succ_mul, Nat.add_comm]

/-- Rows of one length over a range, one after the other. -/
lemma length_rows_of {α : Type} {f : ℕ → List α} {n : ℕ} (h : ∀ i, (f i).length = n) (m : ℕ) :
    ((List.range m).map f).flatten.length = m * n := by
  rw [length_flatten_of (n := n) fun row hrow => ?_, List.length_map, List.length_range]
  obtain ⟨i, -, rfl⟩ := List.mem_map.mp hrow
  exact h i

lemma getElem?_rows {α : Type} {f : ℕ → List α} {n : ℕ} (h : ∀ i, (f i).length = n) {m i col : ℕ} (hi : i < m)
    (hcol : col < n) : ((List.range m).map f).flatten[i * n + col]? = (f i)[col]? := by
  rw [getElem?_flatten (n := n) (fun row hrow => ?_) i hcol, List.getElem?_map, List.getElem?_range hi]
  · rfl
  · obtain ⟨j, -, rfl⟩ := List.mem_map.mp hrow
    exact h j

variable {r c row kb : ℕ}

/-- The place by its digits. -/
lemma Py.sfOffset_eq (row kb kbPad : ℕ) : Py.sfOffset row kb kbPad =
    row / 128 * (kbPad / 4 * 512) + (kb / 4 * 512 + (row % 32 * 16 + (row / 32 % 4 * 4 + kb % 4))) := by
  rw [Py.sfOffset, Nat.add_mul, Nat.mul_assoc]
  omega

/-- A scale is where its offset says. -/
theorem getElem?_swizzleSf (sfBits : ℕ → ℕ → ℕ) (hrow : row < r) (hkb : kb < c) :
    (swizzleSf r c sfBits)[Py.sfOffset row kb (cdiv c 4 * 4)]? = some (sfBits row kb) := by
  have hrows : r ≤ 128 * cdiv r 128 := le_mul_cdiv (by decide)
  have hcols : c ≤ 4 * cdiv c 4 := le_mul_cdiv (by decide)
  have h4 (f : ℕ → ℕ → ℕ) : ∀ i1, ((List.range 4).map fun i4 => f i1 i4).length = 4 := fun i1 => by simp
  have h16 (f : ℕ → ℕ → ℕ → ℕ) : ∀ i2, ((List.range 4).map fun i1 => (List.range 4).map fun i4 => f i2 i1 i4).flatten.length =
      16 := fun i2 => length_rows_of (h4 _) 4
  have h512 (f : ℕ → ℕ → ℕ → ℕ → ℕ) : ∀ i3, ((List.range 32).map fun i2 => ((List.range 4).map fun i1 =>
      (List.range 4).map fun i4 => f i3 i2 i1 i4).flatten).flatten.length = 512 := fun i3 => length_rows_of (h16 _) 32
  rw [Py.sfOffset_eq, swizzleSf]
  dsimp only
  rw [Nat.mul_div_cancel _ (by decide), Nat.mul_div_cancel _ (by decide)]
  rw [getElem?_rows (fun i0 => length_rows_of (h512 _) (cdiv c 4)) (by omega) (by omega),
    getElem?_rows (h512 _) (by omega) (by omega), getElem?_rows (h16 _) (by omega) (by omega),
    getElem?_rows (h4 _) (by omega) (by omega), List.getElem?_map, List.getElem?_range (by omega), Option.map_some]
  have hrow' : (row / 128 * 4 + row / 32 % 4) * 32 + row % 32 = row := by omega
  have hkb' : kb / 4 * 4 + kb % 4 = kb := by omega
  rw [hrow', hkb', if_pos ⟨hrow, hkb⟩]

lemma length_swizzleSf (sfBits : ℕ → ℕ → ℕ) : (swizzleSf r c sfBits).length = paddedSize r c := by
  rw [swizzleSf, paddedSize]
  dsimp only
  rw [Nat.mul_div_cancel _ (by decide), Nat.mul_div_cancel _ (by decide),
    length_rows_of (fun i0 => length_rows_of (fun i3 => length_rows_of (fun i2 => length_rows_of (fun i1 => by
      rw [List.length_map, List.length_range]) 4) 32) _) _]
  ring

/-- The place is inside of the padded size. -/
lemma Py.sfOffset_lt (hrow : row < r) (hkb : kb < c) : Py.sfOffset row kb (cdiv c 4 * 4) < paddedSize r c := by
  have h := getElem?_swizzleSf (fun _ _ => 0) hrow hkb
  rw [← length_swizzleSf fun _ _ => 0]
  exact (List.getElem?_eq_some_iff.mp h).1

/-- Different scales have different places. -/
lemma Py.sfOffset_inj {row' kb' : ℕ} (hrow : row < r) (hkb : kb < c) (hrow' : row' < r) (hkb' : kb' < c)
    (h : Py.sfOffset row kb (cdiv c 4 * 4) = Py.sfOffset row' kb' (cdiv c 4 * 4)) : row = row' ∧ kb = kb' := by
  have hread (f : ℕ → ℕ → ℕ) : f row kb = f row' kb' := by
    have h1 := getElem?_swizzleSf f hrow hkb
    rw [h, getElem?_swizzleSf f hrow' hkb'] at h1
    exact (Option.some.inj h1).symm
  exact ⟨hread fun row _ => row, hread fun _ kb => kb⟩

/-- The scales of a step are four bytes in a row. -/
lemma Py.sfOffset_step {kbPad i : ℕ} (row : ℕ) (hkb : 4 ∣ kb) (hi : i < 4) :
    Py.sfOffset row (kb + i) kbPad = Py.sfOffset row kb kbPad + i ∧ 4 ∣ Py.sfOffset row kb kbPad := by
  have hdiv : (kb + i) / 4 = kb / 4 := by omega
  have hmod : (kb + i) % 4 = i := by omega
  have hzero : kb % 4 = 0 := by omega
  constructor
  · rw [Py.sfOffset, Py.sfOffset, hdiv, hmod, hzero]
    omega
  · rw [Py.sfOffset, hzero]
    omega

/-- The kernel computes the place where it fits into 32 bits. -/
lemma sfOffset_eq (hfit : paddedSize r c ≤ 2 ^ 32) (hrow : row < r) (hkb : kb < c) :
    sfOffset row kb (cdiv c 4 * 4) = Py.sfOffset row kb (cdiv c 4 * 4) := by
  have hlt := (Py.sfOffset_lt hrow hkb).trans_le hfit
  have hatom : row / 128 * (cdiv c 4 * 4 / 4) + kb / 4 < 2 ^ 32 := by
    refine lt_of_le_of_lt ?_ hlt
    rw [Py.sfOffset]
    omega
  rw [sfOffset, u32_of_lt hatom]
  exact u32_of_lt hlt

end SuffixHybrid.NvGemm

/-!
## The operands of a step

Each lane loads registers of 8 codes and words of 4 scales. Where a source has the codes and scales of the rows at the
addresses that the loads compute (`Reads`), the registers of the 32 lanes are the fragments that the instruction
multiplies, with zeros for the rows behind the source (`loadTile_holds`, `loadB_holds`). The instruction is a parameter
that does what is documented for these layouts (`Mma`).
-/

namespace SuffixHybrid.NvGemm
open Finset Lib

/-! ## Loads -/

/-- A buffer of bytes. -/
structure Buf where
  size : ℕ
  byte : ℕ → ℕ

/-- A `u32` by its bytes, the lowest first. -/
abbrev Word := ℕ → ℕ

/-- `ld32`; a load that is not inside of the buffer fails. -/
def ld32 (p : Buf) (off : ℕ) : Option Word :=
  if off + 4 ≤ p.size then some fun i => p.byte (off + i) else none

lemma ld32_eq {p : Buf} {off : ℕ} (h : off + 4 ≤ p.size) : ld32 p off = some fun i => p.byte (off + i) := if_pos h

/-- A code of a register, the low nibble first. -/
def nib (w : Word) (j : ℕ) : ℕ := if j % 2 = 0 then w (j / 2) % 16 else w (j / 2) / 16

/-- All of some values, if there are all. -/
def gather {α : Type} {n : ℕ} (f : Fin n → Option α) : Option (Fin n → α) :=
  if h : ∀ i, (f i).isSome then some fun i => (f i).get (h i) else none

lemma gather_eq {α : Type} {n : ℕ} {f : Fin n → Option α} {g : Fin n → α} (h : ∀ i, f i = some (g i)) :
    gather f = some g := by
  have hsome : ∀ i, (f i).isSome := fun i => by rw [h i]; rfl
  rw [gather, dif_pos hsome]
  exact congrArg some (funext fun i => Option.get_of_eq_some _ (h i))

/-- `load_b`: `w_row` is the place `wRow` of `w`. -/
def loadB (w : Buf) (wRow : ℕ) (wsf : Buf) (kbPad n0 k0 lane : ℕ) : Option ((Fin 2 → Word) × Word) := do
  let off := u32 (k0 / 2 + 4 * (lane % 4))
  let sfb ← ld32 wsf (sfOffset (u32 (n0 + lane / 4)) (k0 / 16) kbPad)
  let b0 ← ld32 w (wRow + off)
  let b1 ← ld32 w (wRow + (off + 16))
  some (![b0, b1], sfb)

/-- `ASrc`: `aq` and `asf` are the places `a0` and `s0` of the buffers. -/
structure ASrc where
  aq : Buf
  a0 : ℕ
  aStride : ℕ
  aRows : ℕ
  kBase : ℕ
  asf : Buf
  s0 : ℕ
  swz : Bool
  sfStride : ℕ
  kbPad : ℕ

/-- The place of the scales of a row in `asf`. -/
def ASrc.sfPlace (s : ASrc) (sr k0 : ℕ) : ℕ :=
  s.s0 + if s.swz then sfOffset sr (k0 / 16) s.kbPad else u32 (sr * s.sfStride + k0 / 16 - s.kBase / 16)

/-- The two registers of a row. -/
def loadRow (s : ASrc) (off r : ℕ) : Option (Word × Word) :=
  if r < s.aRows then do
    let p := u32 (r * s.aStride) + off
    let lo ← ld32 s.aq (s.a0 + p)
    let hi ← ld32 s.aq (s.a0 + (p + 16))
    some (lo, hi)
  else some (fun _ => 0, fun _ => 0)

/-- The scales of a row. -/
def loadSf (s : ASrc) (k0 sr : ℕ) : Option Word :=
  if sr < s.aRows then ld32 s.asf (s.sfPlace sr k0) else some fun _ => 0

/-- `load_a`, of the tile `I`. -/
def loadTile (s : ASrc) (k0 lane I : ℕ) : Option ((Fin 4 → Word) × Word) := do
  let g := lane / 4
  let off := u32 ((k0 - s.kBase) / 2 + 4 * (lane % 4))
  let (a0, a2) ← loadRow s off (16 * I + g)
  let (a1, a3) ← loadRow s off (16 * I + g + 8)
  let sfa ← loadSf s k0 (16 * I + 8 * (lane % 2) + g)
  some (![a0, a1, a2, a3], sfa)

/-- `load_a`. -/
def loadA (MT : ℕ) (s : ASrc) (k0 lane : ℕ) : Option (Fin MT → (Fin 4 → Word) × Word) :=
  gather fun I => loadTile s k0 lane I

/-- `Step`. -/
structure KStep (MT : ℕ) where
  a : Fin MT → (Fin 4 → Word) × Word
  b : (Fin 2 → Word) × Word

/-- `load_step_src`. -/
def loadStepSrc (MT : ℕ) (s : ASrc) (w : Buf) (wRow : ℕ) (wsf : Buf) (n0 k0 lane : ℕ) : Option (KStep MT) := do
  let b ← loadB w wRow wsf s.kbPad n0 k0 lane
  let a ← loadA MT s k0 lane
  some ⟨a, b⟩

/-- `load_step`, which has its own loads. -/
def loadStep (MT : ℕ) (aq : Buf) (aStride aRows : ℕ) (w : Buf) (wRow : ℕ) (asf wsf : Buf) (asfMode nkb kbPad n0 k0 lane : ℕ) :
    Option (KStep MT) := do
  let g := lane / 4
  let t := lane % 4
  let off := u32 (k0 / 2 + 4 * t)
  let kb := k0 / 16
  let b0 ← ld32 w (wRow + off)
  let b1 ← ld32 w (wRow + (off + 16))
  let sfb ← ld32 wsf (sfOffset (u32 (n0 + g)) kb kbPad)
  let row (r : ℕ) : Option (Word × Word) :=
    if r < aRows then do
      let p := u32 (r * aStride) + off
      let lo ← ld32 aq p
      let hi ← ld32 aq (p + 16)
      some (lo, hi)
    else some (fun _ => 0, fun _ => 0)
  let scale (sr : ℕ) : Option Word :=
    if sr < aRows then
      if asfMode = 0 then ld32 asf (u32 (sr * nkb + kb)) else ld32 asf (sfOffset sr kb kbPad)
    else some fun _ => 0
  let a ← gather fun I : Fin MT => do
    let (a0, a2) ← row (16 * I + g)
    let (a1, a3) ← row (16 * I + g + 8)
    let sfa ← scale (16 * I + 8 * (lane % 2) + g)
    some (![a0, a1, a2, a3], sfa)
  some ⟨a, ![b0, b1], sfb⟩

/-- The source of the loads of `load_step`. -/
def plainSrc (aq : Buf) (aStride aRows : ℕ) (asf : Buf) (asfMode nkb kbPad : ℕ) : ASrc :=
  ⟨aq, 0, aStride, aRows, 0, asf, 0, asfMode ≠ 0, nkb, kbPad⟩

/-- `load_step` loads what `load_step_src` does from its source. -/
lemma loadStep_eq (MT : ℕ) (aq : Buf) (aStride aRows : ℕ) (w : Buf) (wRow : ℕ) (asf wsf : Buf)
    (asfMode nkb kbPad n0 k0 lane : ℕ) : loadStep MT aq aStride aRows w wRow asf wsf asfMode nkb kbPad n0 k0 lane =
      loadStepSrc MT (plainSrc aq aStride aRows asf asfMode nkb kbPad) w wRow wsf n0 k0 lane := by
  have hrow (r : ℕ) : loadRow (plainSrc aq aStride aRows asf asfMode nkb kbPad) (u32 (k0 / 2 + 4 * (lane % 4))) r =
      if r < aRows then do
        let lo ← ld32 aq (u32 (r * aStride) + u32 (k0 / 2 + 4 * (lane % 4)))
        let hi ← ld32 aq (u32 (r * aStride) + u32 (k0 / 2 + 4 * (lane % 4)) + 16)
        some (lo, hi)
      else some (fun _ => 0, fun _ => 0) := by
    simp [loadRow, plainSrc]
  have hscale (sr : ℕ) : loadSf (plainSrc aq aStride aRows asf asfMode nkb kbPad) k0 sr =
      if sr < aRows then
        if asfMode = 0 then ld32 asf (u32 (sr * nkb + k0 / 16)) else ld32 asf (sfOffset sr (k0 / 16) kbPad)
      else some fun _ => 0 := by
    by_cases hmode : asfMode = 0 <;> simp [loadSf, ASrc.sfPlace, plainSrc, hmode]
  have htile (I : Fin MT) : loadTile (plainSrc aq aStride aRows asf asfMode nkb kbPad) k0 lane I = (do
      let (a0, a2) ← loadRow (plainSrc aq aStride aRows asf asfMode nkb kbPad) (u32 (k0 / 2 + 4 * (lane % 4)))
        (16 * I + lane / 4)
      let (a1, a3) ← loadRow (plainSrc aq aStride aRows asf asfMode nkb kbPad) (u32 (k0 / 2 + 4 * (lane % 4)))
        (16 * I + lane / 4 + 8)
      let sfa ← loadSf (plainSrc aq aStride aRows asf asfMode nkb kbPad) k0 (16 * I + 8 * (lane % 2) + lane / 4)
      some (![a0, a1, a2, a3], sfa)) := rfl
  unfold loadStep loadStepSrc loadB loadA
  simp only [htile, hrow, hscale]
  -- the loads of the weight come in another order
  cases ld32 w (wRow + u32 (k0 / 2 + 4 * (lane % 4))) <;>
    cases ld32 w (wRow + (u32 (k0 / 2 + 4 * (lane % 4)) + 16)) <;>
      cases hsf : ld32 wsf (sfOffset (u32 (n0 + lane / 4)) (k0 / 16) kbPad) <;> simp [plainSrc, hsf]

/-! ## Sources -/

/-- The code `k` of a row that starts at `row`, two in a byte. -/
def codeAt (p : Buf) (row k : ℕ) : ℕ := if k % 2 = 0 then p.byte (row + k / 2) % 16 else p.byte (row + k / 2) / 16

/-- The source has the codes and the scales of the step at `k0` where the loads look for them. -/
structure ASrc.Reads (s : ASrc) (k0 : ℕ) (code sf : ℕ → ℕ → ℕ) : Prop where
  low : (k0 - s.kBase) / 2 + 32 ≤ 2 ^ 32
  inside : ∀ r < s.aRows, s.a0 + (u32 (r * s.aStride) + (k0 - s.kBase) / 2) + 32 ≤ s.aq.size
  codes : ∀ r < s.aRows, ∀ k < 64, codeAt s.aq (s.a0 + (u32 (r * s.aStride) + (k0 - s.kBase) / 2)) k = code r (k0 + k)
  sfInside : ∀ r < s.aRows, s.sfPlace r k0 + 4 ≤ s.asf.size
  scales : ∀ r < s.aRows, ∀ b < 4, s.asf.byte (s.sfPlace r k0 + b) = sf r (k0 / 16 + b)

/-- The registers of a row, or zeros behind the rows. -/
lemma loadRow_eq {s : ASrc} {k0 : ℕ} {code sf : ℕ → ℕ → ℕ} (h : ASrc.Reads s k0 code sf) {t : ℕ} (ht : t < 4) (r : ℕ) :
    ∃ lo hi, loadRow s (u32 ((k0 - s.kBase) / 2 + 4 * t)) r = some (lo, hi) ∧ ∀ j < 8,
      nib lo j = (if r < s.aRows then code r (k0 + (8 * t + j)) else 0) ∧
      nib hi j = (if r < s.aRows then code r (k0 + (8 * t + j + 32)) else 0) := by
  have hlow := h.low
  rw [u32_of_lt (by omega), loadRow]
  split_ifs with hr
  · have hin := h.inside r hr
    have hcode := h.codes r hr
    generalize u32 (r * s.aStride) = row at hin hcode
    have hlo : s.a0 + (row + ((k0 - s.kBase) / 2 + 4 * t)) + 4 ≤ s.aq.size := by omega
    have hhi : s.a0 + (row + ((k0 - s.kBase) / 2 + 4 * t) + 16) + 4 ≤ s.aq.size := by omega
    simp only [ld32_eq hlo, ld32_eq hhi, Option.bind_eq_bind, Option.bind_some]
    refine ⟨_, _, rfl, fun j hj => ?_⟩
    have h0 := hcode (8 * t + j) (by omega)
    have h1 := hcode (8 * t + j + 32) (by omega)
    have e0 : s.a0 + (row + (k0 - s.kBase) / 2) + (8 * t + j) / 2 = s.a0 + (row + ((k0 - s.kBase) / 2 + 4 * t)) + j / 2 := by
      omega
    have e1 : s.a0 + (row + (k0 - s.kBase) / 2) + (8 * t + j + 32) / 2 =
        s.a0 + (row + ((k0 - s.kBase) / 2 + 4 * t) + 16) + j / 2 := by omega
    have m0 : (8 * t + j) % 2 = j % 2 := by omega
    have m1 : (8 * t + j + 32) % 2 = j % 2 := by omega
    rw [codeAt, e0, m0] at h0
    rw [codeAt, e1, m1] at h1
    exact ⟨h0, h1⟩
  · exact ⟨_, _, rfl, fun j _ => by simp [nib]⟩

/-- The registers of a lane are its parts of the fragment. -/
lemma loadTile_holds {s : ASrc} {k0 : ℕ} {code sf : ℕ → ℕ → ℕ} (h : ASrc.Reads s k0 code sf) (lane I : ℕ) :
    ∃ a sfa, loadTile s k0 lane I = some (a, sfa) ∧
      (∀ r : Fin 4, ∀ j < 8, nib (a r) j = if 16 * I + (lane / 4 + 8 * (r.val % 2)) < s.aRows then
        code (16 * I + (lane / 4 + 8 * (r.val % 2))) (k0 + (8 * (lane % 4) + j + 32 * (r.val / 2))) else 0) ∧
      ∀ b < 4, sfa b = if 16 * I + (8 * (lane % 2) + lane / 4) < s.aRows then
        sf (16 * I + (8 * (lane % 2) + lane / 4)) (k0 / 16 + b) else 0 := by
  have ht : lane % 4 < 4 := Nat.mod_lt _ (by decide)
  obtain ⟨a0, a2, hrow0, h0⟩ := loadRow_eq h ht (16 * I + lane / 4)
  obtain ⟨a1, a3, hrow1, h1⟩ := loadRow_eq h ht (16 * I + lane / 4 + 8)
  obtain ⟨sfa, hsfa, hscale⟩ : ∃ sfa, loadSf s k0 (16 * I + 8 * (lane % 2) + lane / 4) = some sfa ∧
      ∀ b < 4, sfa b = if 16 * I + (8 * (lane % 2) + lane / 4) < s.aRows then
        sf (16 * I + (8 * (lane % 2) + lane / 4)) (k0 / 16 + b) else 0 := by
    rw [← Nat.add_assoc, loadSf]
    split_ifs with hsr
    · rw [ld32_eq (h.sfInside _ hsr)]
      exact ⟨_, rfl, h.scales _ hsr⟩
    · exact ⟨_, rfl, fun b _ => rfl⟩
  refine ⟨![a0, a1, a2, a3], sfa, ?_, fun r j hj => ?_, hscale⟩
  · rw [loadTile]
    simp only [hrow0, hrow1, hsfa, Option.bind_eq_bind, Option.bind_some]
  · match r with
    | 0 => exact (h0 j hj).1
    | 1 => exact (h1 j hj).1
    | 2 => exact (h0 j hj).2
    | 3 => exact (h1 j hj).2

/-- The registers of the weight. -/
lemma loadB_holds {w wsf : Buf} {n k n0 k0 kbPad : ℕ} {sf : ℕ → ℕ → ℕ} (hk0 : k0 + 64 ≤ k) (hn0 : n0 + 8 ≤ n)
    (hw : n * (k / 2) ≤ w.size) (hfit : n * (k / 2) ≤ 2 ^ 32) (hcols : n ≤ 2 ^ 32)
    (hsf : ∀ c < n, sfOffset c (k0 / 16) kbPad + 4 ≤ wsf.size ∧
      ∀ b < 4, wsf.byte (sfOffset c (k0 / 16) kbPad + b) = sf c (k0 / 16 + b)) (hstep : 2 ∣ k0) (lane : Fin 32) :
    ∃ b sfb, loadB w (u32 (u32 (n0 + lane / 4) * (k / 2))) wsf kbPad n0 k0 lane = some (b, sfb) ∧
      (∀ r : Fin 2, ∀ j < 8, nib (b r) j = codeAt w ((n0 + lane / 4) * (k / 2)) (k0 + (8 * (lane % 4) + j + 32 * r))) ∧
      ∀ i < 4, sfb i = sf (n0 + lane / 4) (k0 / 16 + i) := by
  have hcol : n0 + lane / 4 < n := by omega
  obtain ⟨hsfin, hsfval⟩ := hsf _ hcol
  have hrow : (n0 + lane / 4) * (k / 2) + k / 2 ≤ n * (k / 2) := by
    rw [← Nat.succ_mul]
    exact Nat.mul_le_mul_right _ hcol
  have hk2 : 32 ≤ k / 2 := by omega
  have hoff : u32 (k0 / 2 + 4 * (lane % 4)) = k0 / 2 + 4 * (lane.val % 4) := u32_of_lt (by omega)
  rw [u32_of_lt (n := n0 + lane / 4) (by omega), u32_of_lt (n := (n0 + lane / 4) * (k / 2)) (by omega), loadB, hoff,
    u32_of_lt (n := n0 + lane / 4) (by omega)]
  generalize (n0 + lane.val / 4) * (k / 2) = row at hrow
  have hlo : row + (k0 / 2 + 4 * (lane.val % 4)) + 4 ≤ w.size := by omega
  have hhi : row + (k0 / 2 + 4 * (lane.val % 4) + 16) + 4 ≤ w.size := by omega
  simp only [ld32_eq hsfin, ld32_eq hlo, ld32_eq hhi, Option.bind_eq_bind, Option.bind_some]
  refine ⟨_, _, rfl, fun r j hj => ?_, hsfval⟩
  have h0 : row + (k0 + (8 * (lane.val % 4) + j)) / 2 = row + (k0 / 2 + 4 * (lane % 4)) + j / 2 := by omega
  have h1 : row + (k0 + (8 * (lane.val % 4) + j + 32)) / 2 = row + (k0 / 2 + 4 * (lane % 4) + 16) + j / 2 := by omega
  have m0 : (k0 + (8 * (lane.val % 4) + j)) % 2 = j % 2 := by omega
  have m1 : (k0 + (8 * (lane.val % 4) + j + 32)) % 2 = j % 2 := by omega
  match r with
  | 0 =>
    change _ = codeAt w row (k0 + (8 * (lane % 4) + j))
    rw [codeAt, h0, m0]
    rfl
  | 1 =>
    change _ = codeAt w row (k0 + (8 * (lane % 4) + j + 32))
    rw [codeAt, h1, m1]
    rfl

end SuffixHybrid.NvGemm
