import SuffixHybrid.DsMla.Codes
import SuffixHybrid.Lib.Grid
import SuffixHybrid.Lib.Ticket

/-!
# The round trip of a reader-cache row

The writer stores a row block by block (`rowWrites`) and the reader decodes it (`dequantRow`). A dimension is
read back from the nibble and the scale that its block stored (`latent_row`). The error is at most half the
nibble's spacing, until the value over its scale exceeds the largest nibble by more than that
(`abs_sub_le_iff`), which only a scale that is rounded down to the smallest code allows (`scale_bound`).
-/

namespace SuffixHybrid.DsMla
open Lib

/-- A rational as an `f32`. -/
def Num.ofRat (q : ℚ) : Num := ⟨q < 0, |q|, abs_nonneg q⟩

/-- `x * y`. -/
def Num.mul (x y : Num) : Num := ⟨x.neg ^^ y.neg, x.mag * y.mag, mul_nonneg x.nonneg y.nonneg⟩

@[simp] lemma Num.mul_neg (x y : Num) : (x.mul y).neg = (x.neg ^^ y.neg) := rfl

@[simp] lemma Num.mul_mag (x y : Num) : (x.mul y).mag = x.mag * y.mag := rfl

/-- `sf_perm`. -/
def sfPerm (s : ℕ) : ℕ := 8 * (s &&& 3) + (s >>> 2)

/-- The largest magnitude of a block. -/
def amax (x : ℕ → Num) : ℚ :=
  (List.range 16).foldl (fun amax i => let a := (x i).mag; if a > amax then a else amax) 0

/-- The scale of a block before it is encoded. -/
def blockScale (x : ℕ → Num) : ℚ :=
  let q := amax x / 6
  if q < 2 ^ (-9 : ℤ) then 2 ^ (-9 : ℤ) else q

/-- `quant_block`; `f32_to_e4m3` gives no NaN, so the scale always has a value. -/
def quantBlock (x : ℕ → Num) : ℕ × (ℕ → ℕ) :=
  let sf := f32ToE4m3 (Num.ofRat (blockScale x))
  let sfF := (e4m3ToF32 sf).elim 0 Num.val
  let inv := if sfF = 0 then 0 else 1 / sfF
  let data (j : ℕ) :=
    let lo := f32ToE2m1 ((x (2 * j)).mul (Num.ofRat inv))
    let hi := f32ToE2m1 ((x (2 * j + 1)).mul (Num.ofRat inv))
    lo ||| hi <<< 4
  (sf, data)

/-- A block of a row. -/
def block (x : ℕ → Num) (blk : ℕ) : ℕ → Num := fun i => x (blk * 16 + i)

/-- The bytes of a row, in the order in which they are written. -/
def rowWrites (x pe : ℕ → Num) : List (ℕ × ℕ) :=
  ((List.range 32).flatMap fun blk =>
    let (sf, data) := quantBlock (block x blk)
    ((List.range 8).map fun j => (blk * 8 + j, data j)) ++ [(320 + sfPerm blk, sf)]) ++
  (List.range 64).map fun d => (256 + d, f32ToE4m3 (pe d))

/-- The stored row. -/
def storedRow (x pe : ℕ → Num) : ℕ → ℕ := storeAll (fun _ => 0) (rowWrites x pe)

/-- The dimensions of the latent, in the order in which they are read; a NaN has no value. -/
def latentWrites (row : ℕ → ℕ) : List (ℕ × Option Num) :=
  (List.range 32).flatMap fun blk =>
    let sfb := sfPerm blk
    let sf := e4m3ToF32 (row (320 + sfb))
    (List.range 8).flatMap fun j =>
      let byte := row (blk * 8 + j)
      [(blk * 16 + 2 * j, sf.map (e2m1ToF32 (byte &&& 0xF)).mul),
        (blk * 16 + 2 * j + 1, sf.map (e2m1ToF32 (byte >>> 4)).mul)]

/-- `dequant_row`. -/
def dequantRow (row : ℕ → ℕ) : (ℕ → Option Num) × (ℕ → Option Num) :=
  let latent := storeAll (fun _ => some (Num.ofRat 0)) (latentWrites row)
  let rope := storeAll (fun _ => some (Num.ofRat 0))
    ((List.range 64).map fun d => (d, e4m3ToF32 (row (256 + d))))
  (latent, rope)

/-! ## The layout -/

lemma sfPerm_perm : ((List.range 32).map sfPerm).Perm (List.range 32) := by decide

/-- Every byte of a row is written once. -/
lemma rowWrites_perm (x pe : ℕ → Num) : ((rowWrites x pe).map Prod.fst).Perm (List.range 352) := by
  have hkeys : (rowWrites x pe).map Prod.fst =
      ((List.range 32).flatMap fun blk => (List.range 8).map (blk * 8 + ·) ++ [320 + sfPerm blk]) ++
        (List.range 64).map (256 + ·) := by
    simp only [rowWrites, List.map_append, List.map_flatMap, List.map_map, List.map_cons, List.map_nil,
      Function.comp_def]
  have hdata : (List.range 32).flatMap (fun blk => (List.range 8).map (blk * 8 + ·)) = List.range 256 := by
    rw [List.range_eq_range' (n := 32), range'_blocks, Nat.zero_mul, ← List.range_eq_range']
  have hscales : ((List.range 32).flatMap fun blk => [320 + sfPerm blk]).Perm ((List.range 32).map (320 + ·)) := by
    rw [← List.map_eq_flatMap]
    simpa only [List.map_map, Function.comp_def] using sfPerm_perm.map (320 + ·)
  have hrange : List.range 352 =
      List.range 256 ++ (List.range 64).map (256 + ·) ++ (List.range 32).map (320 + ·) := by
    rw [show 352 = 256 + 64 + 32 from rfl, List.range_add, List.range_add]
  rw [hkeys, hrange]
  refine ((List.flatMap_append_perm _ _ _).symm.append_right _).trans ?_
  rw [hdata, List.append_assoc, List.append_assoc]
  exact (List.perm_append_comm.trans (hscales.append_left _)).append_left _

/-- A write stays. -/
lemma storedRow_of_mem {x pe : ℕ → Num} {k b : ℕ} (h : (k, b) ∈ rowWrites x pe) : storedRow x pe k = b := by
  have hnodup : ((rowWrites x pe).map Prod.fst).Nodup := (rowWrites_perm x pe).nodup_iff.mpr List.nodup_range
  exact storeAll_of_nodup hnodup h

lemma storedRow_data (x pe : ℕ → Num) {blk j : ℕ} (hblk : blk < 32) (hj : j < 8) :
    storedRow x pe (blk * 8 + j) = (quantBlock (block x blk)).2 j := by
  refine storedRow_of_mem (List.mem_append_left _ (List.mem_flatMap.mpr ⟨blk, List.mem_range.mpr hblk, ?_⟩))
  exact List.mem_append_left _ (List.mem_map.mpr ⟨j, List.mem_range.mpr hj, rfl⟩)

lemma storedRow_scale (x pe : ℕ → Num) {blk : ℕ} (hblk : blk < 32) :
    storedRow x pe (320 + sfPerm blk) = (quantBlock (block x blk)).1 := by
  refine storedRow_of_mem (List.mem_append_left _ (List.mem_flatMap.mpr ⟨blk, List.mem_range.mpr hblk, ?_⟩))
  exact List.mem_append_right _ List.mem_cons_self

lemma storedRow_rope (x pe : ℕ → Num) {d : ℕ} (hd : d < 64) :
    storedRow x pe (256 + d) = f32ToE4m3 (pe d) :=
  storedRow_of_mem (List.mem_append_right _ (List.mem_map.mpr ⟨d, List.mem_range.mpr hd, rfl⟩))

/-- The reader writes the dimensions in order. -/
lemma latentWrites_keys (row : ℕ → ℕ) : (latentWrites row).map Prod.fst = List.range 512 := by
  have hblock (blk : ℕ) : ((List.range 8).flatMap fun j => [blk * 16 + 2 * j, blk * 16 + 2 * j + 1]) =
      (List.range 16).map (blk * 16 + ·) := rfl
  simp only [latentWrites, List.map_flatMap, List.map_cons, List.map_nil, hblock]
  rw [List.range_eq_range' (n := 32), range'_blocks, Nat.zero_mul, ← List.range_eq_range']

/-- The reader writes a dimension of the latent from its nibble and the scale of its block. -/
lemma dequantRow_latent (row : ℕ → ℕ) {blk j : ℕ} (hblk : blk < 32) (hj : j < 8) :
    (dequantRow row).1 (blk * 16 + 2 * j) =
        (e4m3ToF32 (row (320 + sfPerm blk))).map (e2m1ToF32 (row (blk * 8 + j) &&& 0xF)).mul ∧
      (dequantRow row).1 (blk * 16 + 2 * j + 1) =
        (e4m3ToF32 (row (320 + sfPerm blk))).map (e2m1ToF32 (row (blk * 8 + j) >>> 4)).mul := by
  have hmem {p : ℕ × Option Num} (hp : p ∈ [
      (blk * 16 + 2 * j, (e4m3ToF32 (row (320 + sfPerm blk))).map (e2m1ToF32 (row (blk * 8 + j) &&& 0xF)).mul),
      (blk * 16 + 2 * j + 1,
        (e4m3ToF32 (row (320 + sfPerm blk))).map (e2m1ToF32 (row (blk * 8 + j) >>> 4)).mul)]) :
      p ∈ latentWrites row := by
    refine List.mem_flatMap.mpr ⟨blk, List.mem_range.mpr hblk, ?_⟩
    exact List.mem_flatMap.mpr ⟨j, List.mem_range.mpr hj, hp⟩
  have hstore {k : ℕ} {v : Option Num} (hp : (k, v) ∈ latentWrites row) : (dequantRow row).1 k = v := by
    simp only [dequantRow]
    exact storeAll_of_nodup (latentWrites_keys row ▸ List.nodup_range) hp
  constructor
  · exact hstore (hmem List.mem_cons_self)
  · exact hstore (hmem (List.mem_cons_of_mem _ List.mem_cons_self))

lemma dequantRow_rope (row : ℕ → ℕ) {d : ℕ} (hd : d < 64) :
    (dequantRow row).2 d = e4m3ToF32 (row (256 + d)) :=
  storeAll_map id (fun d => e4m3ToF32 (row (256 + d))) _ (fun _ _ h => h) (List.mem_range.mpr hd)

/-! ## The scale of a block -/

lemma mag_le_amax (x : ℕ → Num) {i : ℕ} (hi : i < 16) : (x i).mag ≤ amax x := by
  have h := foldl_range_inv (P := fun i (m : ℚ) => ∀ j < i, (x j).mag ≤ m) (m := 16) (s := 0)
    (f := fun amax i => let a := (x i).mag; if a > amax then a else amax) (fun j hj => absurd hj (Nat.not_lt_zero j))
    fun i m _ hP j hj => by
      dsimp only
      obtain hlt | rfl := Nat.lt_succ_iff_lt_or_eq.mp hj
      · split
        case isTrue h => exact (hP j hlt).trans h.le
        case isFalse => exact hP j hlt
      · split
        case isTrue => exact le_rfl
        case isFalse h => exact not_lt.mp h
  exact h i hi

/-- The values next to each other on the e4m3 grid. -/
lemma e4m3Grid_ratio {k : ℕ} (hk : 2 ≤ k) : e4m3Grid (k + 1) ≤ 3 / 2 * e4m3Grid k := by
  obtain ⟨exp, m, hm, rfl⟩ : ∃ exp m, m < 8 ∧ k = exp * 8 + m :=
    ⟨k / 8, k % 8, Nat.mod_lt k (by decide), (Nat.div_add_mod' k 8).symm⟩
  have hnext (u c : ℚ) (hu : 0 < u) (hc : 2 ≤ c) : (c + 1) * u ≤ 3 / 2 * (c * u) := by nlinarith
  obtain rfl | hexp := Nat.eq_zero_or_pos exp
  · have h2 : (2 : ℚ) ≤ m := by exact_mod_cast (by omega : 2 ≤ m)
    have hstep := hnext (2 ^ (-9 : ℤ)) m (zpow_pos two_pos _) h2
    rw [Nat.zero_mul, add_assoc, e4m3Grid_subnormal hm.le, e4m3Grid_subnormal hm]
    push_cast
    linarith
  · have h8 : (2 : ℚ) ≤ 8 + m := by
      have hm0 : (0 : ℚ) ≤ m := Nat.cast_nonneg m
      linarith
    have hstep := hnext (2 ^ ((exp : ℤ) - 10)) (8 + m) (zpow_pos two_pos _) h8
    rw [add_assoc, e4m3Grid_normal hexp hm.le, e4m3Grid_normal hexp hm]
    push_cast
    linarith

/-- The code of the scale: the smallest if the block is small, else at most a quarter too low. -/
lemma scale_bound {x : ℕ → Num} (hmax : amax x ≤ 6 * 448) : ∃ k v, 1 ≤ k ∧ k ≤ 126 ∧
    e4m3ToF32 (quantBlock x).1 = some v ∧ v.neg = false ∧ v.mag = e4m3Grid k ∧
    (k = 1 ↔ amax x < 9 * 2 ^ (-9 : ℤ)) ∧ (2 ≤ k → amax x / 6 ≤ 5 / 4 * e4m3Grid k) := by
  obtain ⟨h1, h2, h126⟩ := e4m3Grid_values
  have hmono := e4m3_signMagnitude.mono
  generalize hu : (2 : ℚ) ^ (-9 : ℤ) = u at *
  have hu0 : 0 < u := hu ▸ zpow_pos two_pos _
  have hq : u ≤ blockScale x ∧ amax x / 6 ≤ blockScale x ∧ (blockScale x < 3 / 2 * u ↔ amax x < 9 * u) ∧
      (blockScale x = u ∨ blockScale x = amax x / 6) := by
    rw [blockScale, hu]
    split
    case isTrue h => exact ⟨le_rfl, h.le, by constructor <;> intro <;> linarith, .inl rfl⟩
    case isFalse h => exact ⟨not_lt.mp h, le_rfl, by constructor <;> intro <;> linarith, .inr rfl⟩
  obtain ⟨hlow, hamax, hsmall, hcases⟩ := hq
  have hneg : (Num.ofRat (blockScale x)).neg = false := decide_eq_false (by linarith)
  have hmag : (Num.ofRat (blockScale x)).mag = blockScale x := abs_of_nonneg (by linarith)
  obtain ⟨k, hk, he⟩ := f32ToE4m3_spec (Num.ofRat (blockScale x))
  rw [hmag] at hk
  rw [hneg] at he
  obtain ⟨v, hv, hvneg, hvmag⟩ := e4m3_signMagnitude.decode false k hk.le
  have hpos : 1 ≤ k := by
    refine NearestEven.mono hmono (h1.trans_le hlow) (.self hmono (by decide)) hk
  refine ⟨k, v, hpos, hk.le, ?_, hvneg, hvmag, ?_, ?_⟩
  · rw [quantBlock, he]
    exact hv
  · have hg : e4m3Grid 1 < e4m3Grid 2 := hmono (by decide) (by decide) (by decide)
    rw [← hsmall]
    constructor
    · rintro rfl
      have hle := (abs_sub_lower_le_iff hg).mp (hk.nearest 2 (by decide))
      have hne : 2 * blockScale x ≠ e4m3Grid 1 + e4m3Grid 2 := by
        intro htie
        obtain h | h := hk.even 2 (by decide) ((abs_sub_eq_iff hg).mpr htie).symm
        · exact absurd h (by decide)
        · exact absurd h (by decide)
      have hlt := lt_of_le_of_ne hle hne
      linarith
    · intro hlt
      by_contra hne
      have hk2 : e4m3Grid 2 ≤ e4m3Grid k := hmono.monotoneOn (by decide) hk.le (by omega)
      have := (abs_sub_upper_le_iff (hg.trans_le hk2)).mp (hk.nearest 1 (by decide))
      linarith
  · intro hk2
    obtain rfl | hlt := hk.le.eq_or_lt
    · linarith
    · have hnext : e4m3Grid k < e4m3Grid (k + 1) := hmono hk.le hlt (Nat.lt_succ_self k)
      have hle := (abs_sub_lower_le_iff hnext).mp (hk.nearest (k + 1) hlt)
      have hratio := e4m3Grid_ratio hk2
      linarith

/-! ## The error of a dimension -/

lemma nibbles : ∀ lo < 16, ∀ hi < 16, (lo ||| hi <<< 4) &&& 0xF = lo ∧ (lo ||| hi <<< 4) >>> 4 = hi := by
  decide

/-- The nearest nibble is as near as the bound asks up to its saturation and a little beyond. -/
lemma abs_sub_le_iff {t : ℚ} (ht : 0 ≤ t) {k : ℕ} (hk : NearestEven e2m1Grid 7 t k) :
    |t - e2m1Grid k| ≤ 1 / 2 + t / 4 ↔ t ≤ 26 / 3 := by
  have hgrid : e2m1Grid 0 = 0 ∧ e2m1Grid 2 = 1 ∧ e2m1Grid 4 = 2 ∧ e2m1Grid 5 = 3 ∧ e2m1Grid 6 = 4 ∧
      e2m1Grid 7 = 6 := by decide
  obtain ⟨h0, h2, h4, h5, h6, h7⟩ := hgrid
  constructor
  · intro h
    by_contra hlt
    have hlast : k = 7 := hk.unique e2m1_signMagnitude.mono (.last e2m1_signMagnitude.mono (by linarith))
    rw [hlast, h7] at h
    have := le_abs_self (t - 6)
    linarith
  · intro hle
    -- a grid point that is near enough
    suffices ∃ j ≤ 7, |t - e2m1Grid j| ≤ 1 / 2 + t / 4 by
      obtain ⟨j, hj, h⟩ := this
      exact (hk.nearest j hj).trans h
    by_cases ht0 : t ≤ 1 / 2
    · exact ⟨0, by decide, by rw [h0, abs_le]; constructor <;> linarith⟩
    by_cases ht2 : t ≤ 3 / 2
    · exact ⟨2, by decide, by rw [h2, abs_le]; constructor <;> linarith⟩
    by_cases ht4 : t ≤ 5 / 2
    · exact ⟨4, by decide, by rw [h4, abs_le]; constructor <;> linarith⟩
    by_cases ht5 : t ≤ 7 / 2
    · exact ⟨5, by decide, by rw [h5, abs_le]; constructor <;> linarith⟩
    by_cases ht6 : t ≤ 9 / 2
    · exact ⟨6, by decide, by rw [h6, abs_le]; constructor <;> linarith⟩
    · exact ⟨7, by decide, by rw [h7, abs_le]; constructor <;> linarith⟩

/-- A value over the scale, encoded, decoded and scaled again. -/
lemma nibble_error (z : Num) {sf : Num} (hneg : sf.neg = false) (hpos : 0 < sf.mag) :
    f32ToE2m1 (z.mul (Num.ofRat (1 / sf.mag))) < 16 ∧
      (|((e2m1ToF32 (f32ToE2m1 (z.mul (Num.ofRat (1 / sf.mag))))).mul sf).val - z.val| ≤
          sf.val / 2 + |z.val| / 4 ↔ z.mag ≤ 26 / 3 * sf.mag) := by
  have hinv : 0 ≤ 1 / sf.mag := one_div_nonneg.mpr hpos.le
  have hineg : (Num.ofRat (1 / sf.mag)).neg = false := decide_eq_false hinv.not_gt
  have himag : (Num.ofRat (1 / sf.mag)).mag = 1 / sf.mag := abs_of_nonneg hinv
  obtain ⟨k, hk, he⟩ := f32ToE2m1_spec (z.mul (Num.ofRat (1 / sf.mag)))
  obtain ⟨w, hw, hwneg, hwmag⟩ := e2m1_signMagnitude.decode (z.mul (Num.ofRat (1 / sf.mag))).neg k hk.le
  rw [← he] at hw
  obtain rfl := Option.some.inj hw
  have hkle := hk.le
  refine ⟨by rw [he]; split <;> omega, ?_⟩
  generalize e2m1ToF32 (f32ToE2m1 (z.mul (Num.ofRat (1 / sf.mag)))) = w at *
  simp only [Num.mul_neg, Num.mul_mag, hineg, himag, Bool.xor_false] at hk hwneg
  have ht : 0 ≤ z.mag * (1 / sf.mag) := mul_nonneg z.nonneg hinv
  have hz : z.mag = z.mag * (1 / sf.mag) * sf.mag := by field_simp
  have herr : |(w.mul sf).val - z.val| = |z.mag * (1 / sf.mag) - e2m1Grid k| * sf.mag := by
    have hsign : (w.mul sf).neg = z.neg := by rw [Num.mul_neg, hneg, Bool.xor_false, hwneg]
    have hmag : (w.mul sf).mag = e2m1Grid k * sf.mag := by rw [Num.mul_mag, hwmag]
    rw [Num.abs_val_sub hsign, hmag, abs_sub_comm]
    nth_rewrite 1 [hz]
    rw [← sub_mul, abs_mul, abs_of_pos hpos]
  have hiff := abs_sub_le_iff ht hk
  rw [herr, Num.val_of_false hneg, z.abs_val]
  generalize z.mag * (1 / sf.mag) = t at *
  rw [hz]
  have hsum : sf.mag / 2 + t * sf.mag / 4 = (1 / 2 + t / 4) * sf.mag := by ring
  rw [hsum, mul_le_mul_iff_left₀ hpos, mul_le_mul_iff_left₀ hpos]
  exact hiff

/-- The two nibbles of a byte. -/
lemma quantBlock_data {x : ℕ → Num} {sf : Num} (hsf : e4m3ToF32 (quantBlock x).1 = some sf)
    (hneg : sf.neg = false) (hpos : 0 < sf.mag) (j : ℕ) :
    (quantBlock x).2 j &&& 0xF = f32ToE2m1 ((x (2 * j)).mul (Num.ofRat (1 / sf.mag))) ∧
      (quantBlock x).2 j >>> 4 = f32ToE2m1 ((x (2 * j + 1)).mul (Num.ofRat (1 / sf.mag))) := by
  have hdata : (quantBlock x).2 j = f32ToE2m1 ((x (2 * j)).mul (Num.ofRat (1 / sf.mag))) |||
      f32ToE2m1 ((x (2 * j + 1)).mul (Num.ofRat (1 / sf.mag))) <<< 4 := by
    simp only [quantBlock] at hsf ⊢
    rw [hsf, Option.elim_some, Num.val_of_false hneg, if_neg hpos.ne']
  rw [hdata]
  exact nibbles _ (nibble_error _ hneg hpos).1 _ (nibble_error _ hneg hpos).1

/-- A dimension is read back with an error of at most half a scale and a quarter of its magnitude. -/
def Within (x : ℕ → Num) (row : ℕ → ℕ) (d : ℕ) : Prop :=
  ∃ sf v, e4m3ToF32 (row (320 + sfPerm (d / 16))) = some sf ∧ (dequantRow row).1 d = some v ∧
    |v.val - (x d).val| ≤ sf.val / 2 + |(x d).val| / 4

/-- A dimension is read back as the nibble of its value over the scale, times the scale. -/
lemma latent_row (x pe : ℕ → Num) {d : ℕ} (hd : d < 512) {sf : Num}
    (hsf : e4m3ToF32 (quantBlock (block x (d / 16))).1 = some sf) (hneg : sf.neg = false) (hpos : 0 < sf.mag) :
    (dequantRow (storedRow x pe)).1 d =
      some ((e2m1ToF32 (f32ToE2m1 ((x d).mul (Num.ofRat (1 / sf.mag))))).mul sf) := by
  have hblk : d / 16 < 32 := by omega
  have hj : d % 16 / 2 < 8 := by omega
  obtain ⟨hlo, hhi⟩ := dequantRow_latent (storedRow x pe) hblk hj
  obtain ⟨hdlo, hdhi⟩ := quantBlock_data hsf hneg hpos (d % 16 / 2)
  rw [storedRow_scale x pe hblk, storedRow_data x pe hblk hj, hsf, Option.map_some] at hlo hhi
  rw [hdlo] at hlo
  rw [hdhi] at hhi
  obtain heven | hodd := Nat.mod_two_eq_zero_or_one d
  · have hdim : d / 16 * 16 + 2 * (d % 16 / 2) = d := by omega
    rw [hdim, block, hdim] at hlo
    exact hlo
  · have hdim : d / 16 * 16 + 2 * (d % 16 / 2) + 1 = d := by omega
    rw [hdim, block, ← Nat.add_assoc, hdim] at hhi
    exact hhi

/-- The bound holds but beyond the saturation of the smallest scale. -/
lemma within_iff {x : ℕ → Num} (pe : ℕ → Num) {d : ℕ} (hd : d < 512)
    (hmax : amax (block x (d / 16)) ≤ 6 * 448) :
    Within x (storedRow x pe) d ↔
      ¬ (amax (block x (d / 16)) < 9 * 2 ^ (-9 : ℤ) ∧ 26 / 3 * 2 ^ (-9 : ℤ) < |(x d).val|) := by
  have hblk : d / 16 < 32 := by omega
  obtain ⟨k, sf, hk1, hk126, hsf, hneg, hmag, hsmall, hlarge⟩ := scale_bound hmax
  have hunit := e4m3Grid_values.1
  have hpos : 0 < sf.mag := by
    have hle : e4m3Grid 1 ≤ e4m3Grid k :=
      e4m3_signMagnitude.mono.monotoneOn (by decide) hk126 hk1
    rw [hmag]
    exact (hunit ▸ zpow_pos two_pos _).trans_le hle
  have hxd : (x d).mag ≤ amax (block x (d / 16)) := by
    have h := mag_le_amax (block x (d / 16)) (i := d % 16) (Nat.mod_lt d (by decide))
    rwa [block, Nat.div_add_mod'] at h
  have hwithin : Within x (storedRow x pe) d ↔ (x d).mag ≤ 26 / 3 * sf.mag := by
    rw [← (nibble_error (x d) hneg hpos).2]
    constructor
    · rintro ⟨sf', v, hsf', hv, herr⟩
      rw [storedRow_scale x pe hblk, hsf] at hsf'
      rw [latent_row x pe hd hsf hneg hpos] at hv
      cases hsf'
      cases hv
      exact herr
    · intro herr
      exact ⟨sf, _, by rw [storedRow_scale x pe hblk, hsf], latent_row x pe hd hsf hneg hpos, herr⟩
  rw [hwithin, Num.abs_val, ← hsmall, hmag]
  constructor
  · rintro hle ⟨rfl, hlt⟩
    rw [hunit] at hle
    exact absurd hle hlt.not_ge
  · intro hnot
    by_contra hlt
    obtain rfl | hk2 := hk1.eq_or_lt
    · exact hnot ⟨rfl, by rw [← hunit]; exact not_le.mp hlt⟩
    · have := hlarge hk2
      rw [hmag] at hpos
      linarith [not_le.mp hlt]

/-- A stored row has each of its bytes written once, gives every rope dimension its nearest e4m3 value, and a
latent dimension its value up to half a scale and a quarter of it, except beyond the saturation of the smallest
scale. -/
theorem row_round_trip (x pe : ℕ → Num) (hmax : ∀ blk < 32, amax (block x blk) ≤ 6 * 448) :
    ((rowWrites x pe).map Prod.fst).Perm (List.range 352) ∧
      (∀ d < 512, Within x (storedRow x pe) d ↔
        ¬ (amax (block x (d / 16)) < 9 * 2 ^ (-9 : ℤ) ∧ 26 / 3 * 2 ^ (-9 : ℤ) < |(x d).val|)) ∧
      ∀ d < 64, ∃ v, (dequantRow (storedRow x pe)).2 d = some v ∧
        ∀ c < 256, ∀ w, e4m3ToF32 c = some w → |(pe d).val - v.val| ≤ |(pe d).val - w.val| := by
  refine ⟨rowWrites_perm x pe, fun d hd => within_iff pe hd (hmax _ (by omega)), fun d hd => ?_⟩
  obtain ⟨-, v, hv, -, hnear⟩ := (e4m3_signMagnitude.rounding f32ToE4m3_spec).nearest (pe d)
  refine ⟨v, ?_, fun c hc w hw => (hnear c hc w hw).1⟩
  rw [dequantRow_rope _ hd, storedRow_rope x pe hd, hv]

/-- The last dim of a row of ones. -/
theorem row_round_trip_ones : Within (fun _ => Num.ofRat 1)
    (storedRow (fun _ => Num.ofRat 1) fun _ => Num.ofRat (1 / 3)) 511 := by
  have hamax (blk : ℕ) : amax (block (fun _ => Num.ofRat 1) blk) = 1 := by
    have hblock : block (fun _ => Num.ofRat 1) blk = fun _ => Num.ofRat 1 := rfl
    rw [hblock]
    decide +kernel
  have hmax : ∀ blk < 32, amax (block (fun _ => Num.ofRat 1) blk) ≤ 6 * 448 := fun blk _ => by
    rw [hamax]
    norm_num
  have hwithin := (row_round_trip (fun _ => Num.ofRat 1) (fun _ => Num.ofRat (1 / 3)) hmax).2.1
  rw [hwithin 511 (by decide), hamax]
  norm_num

/-- A latent with one value, of 8.8 times the smallest scale. -/
def spike (d : ℕ) : Num := Num.ofRat (if d = 0 then 11 / 640 else 0)

/-- Its scale is rounded down, and the value saturates at six of it. -/
theorem small_block_saturates : (∀ blk < 32, amax (block spike blk) ≤ 6 * 448) ∧
    ¬ Within spike (storedRow spike fun _ => Num.ofRat 0) 0 := by
  have hmax : ∀ blk < 32, amax (block spike blk) ≤ 6 * 448 := by decide +kernel
  have hsmall : amax (block spike (0 / 16)) < 9 * 2 ^ (-9 : ℤ) ∧ 26 / 3 * 2 ^ (-9 : ℤ) < |(spike 0).val| := by
    decide +kernel
  refine ⟨hmax, ?_⟩
  rw [within_iff _ (by decide) (hmax (0 / 16) (by decide))]
  exact not_not_intro hsmall

end SuffixHybrid.DsMla
