import SuffixHybrid.DsMla.Row
import SuffixHybrid.Lib.Best

/-!
# NVFP4 weights

A block of sixteen weights of a row has an e4m3 scale and an e2m1 code for each weight, two codes to a byte.
The scale of a candidate takes the largest weight of the block to that candidate, and of several candidates
each block keeps the first of least squared error. Tensors are functions of their indices; `float32`
arithmetic is exact here, the two roundings to codes are not.
-/

namespace SuffixHybrid.Nvfp4

open Lib SuffixHybrid.DsMla

/-! ## e2m1 codes -/

def FP4_MAX : ℚ := 6
def E4M3_MAX : ℚ := 448
def GLOBAL : ℚ := FP4_MAX * E4M3_MAX
def GROUP : ℕ := 16

/-- `_MID`. -/
def MID : List ℚ := [1 / 4, 3 / 4, 5 / 4, 7 / 4, 5 / 2, 7 / 2, 5]

/-- `odd` in `e2m1_codes`. -/
def ODD : List Bool := [false, true, false, true, false, true, false]

/-- `e2m1_codes`, of one value. -/
def e2m1Codes (x : ℚ) : ℕ :=
  let a := min |x| FP4_MAX
  let gt := MID.countP fun m => a > m
  let tieUp := (MID.zip ODD).countP fun p => a = p.1 ∧ p.2
  let code := gt + tieUp
  code ||| (if x < 0 then 1 else 0) <<< 3

/-- `lut` and the sign of a code. -/
def codeVal (code : ℕ) : ℚ := MAGS.getD (code &&& 7) 0 * if code &&& 8 > 0 then -1 else 1

/-! ## Quantization -/

/-- `.to(torch.float8_e4m3fn)`. -/
def toE4m3 (x : ℚ) : ℕ := f32ToE4m3 (Num.ofRat x)

/-- `.float()` of an e4m3 value; the scales are no NaN. -/
def e4m3Val (b : ℕ) : ℚ := (e4m3ToF32 b).elim 0 Num.val

/-- The largest magnitude of a block. -/
def bmax (blk : ℕ → ℚ) : ℚ := ((List.range GROUP).map fun i => |blk i|).foldl max 0

/-- The scale of a block for a candidate. -/
def scaleOf (g : ℚ) (blk : ℕ → ℚ) (c : ℚ) : ℕ := toE4m3 (min (bmax blk * (g / c)) E4M3_MAX)

/-- `inv`. -/
def invOf (g s : ℚ) : ℚ := if s = 0 then 0 else g / max s (1 / 10 ^ 30)

/-- The codes of a block for a candidate. -/
def codeOf (g : ℚ) (blk : ℕ → ℚ) (c : ℚ) (i : ℕ) : ℕ :=
  e2m1Codes (blk i * invOf g (e4m3Val (scaleOf g blk c)))

/-- The squared error of a block for a candidate. -/
def errOf (g : ℚ) (blk : ℕ → ℚ) (c : ℚ) : ℚ :=
  ((List.range GROUP).map fun i =>
    (codeVal (codeOf g blk c i) * e4m3Val (scaleOf g blk c) / g - blk i) ^ 2).sum

/-- `best_err`, `best_sf` and `best_code`, by row, block and place in the block. -/
structure Best where
  err : ℕ → ℕ → ℚ
  sf : ℕ → ℕ → ℕ
  code : ℕ → ℕ → ℕ → ℕ

/-- One candidate of the loop in `quantize_weight`. -/
def searchStep (g : ℚ) (blk : ℕ → ℕ → ℕ → ℚ) (best : Option Best) (c : ℚ) : Best :=
  let sf r b := scaleOf g (blk r b) c
  let code r b := codeOf g (blk r b) c
  let err r b := errOf g (blk r b) c
  match best with
  | none => ⟨err, sf, code⟩
  | some best =>
    let take r b := decide (err r b < best.err r b)
    ⟨fun r b => if take r b then err r b else best.err r b, fun r b => if take r b then sf r b else best.sf r b,
      fun r b i => if take r b then code r b i else best.code r b i⟩

/-- `packed`, `scales` and `weight_scale_2`. -/
structure Quantized where
  packed : ℕ → ℕ → ℕ
  sf : ℕ → ℕ → ℕ
  ws2 : ℚ

/-- The quant multiplier. -/
def multiplier (amax : ℚ) : ℚ := GLOBAL / max amax (1 / 10 ^ 12)

/-- `w.reshape(n, k // GROUP, GROUP)`. -/
def blocks (w : ℕ → ℕ → ℚ) (r b i : ℕ) : ℚ := w r (b * GROUP + i)

/-- One row of `packed`: the code of an even column is the low nibble. -/
def pack (code : ℕ → ℕ) (j : ℕ) : ℕ := code (2 * j) ||| code (2 * j + 1) <<< 4 % 2 ^ 8

/-- `quantize_weight`, of `k` columns. The error of a single candidate is not computed, and not read here. -/
def quantizeWeight (k : ℕ) (w : ℕ → ℕ → ℚ) (amax : ℚ) (search : List ℚ) : Except String Quantized := do
  if k % GROUP ≠ 0 then .error s!"ValueError: K={k} not a multiple of {GROUP}"
  let g := multiplier amax
  let best ← search.foldlM
    (fun best c => if c = 0 then .error "ZeroDivisionError" else .ok (some (searchStep g (blocks w) best c))) none
  match best with
  | none => .error "AttributeError: 'NoneType' object has no attribute 'reshape'"
  | some best => .ok ⟨fun r => pack fun c => best.code r (c / GROUP) (c % GROUP), best.sf, 1 / g⟩

/-- `dequantize_weight`. -/
def dequantizeWeight (q : Quantized) (r c : ℕ) : ℚ :=
  let code := if c % 2 = 0 then q.packed r (c / 2) &&& 0xF else q.packed r (c / 2) >>> 4
  codeVal code * e4m3Val (q.sf r (c / GROUP)) * q.ws2

/-! ## The codes are nearest -/

/-- The thresholds are the midpoints of the grid, and the ties go up from the odd codes. -/
lemma mid_eq : MID = (List.range 7).map fun i => (e2m1Grid i + e2m1Grid (i + 1)) / 2 := by
  norm_num [MID, e2m1Grid, MAGS, List.range_succ]

lemma mid_zip_odd : MID.zip ODD =
    (List.range 7).map fun i => ((e2m1Grid i + e2m1Grid (i + 1)) / 2, decide (i % 2 = 1)) := by
  norm_num [MID, ODD, e2m1Grid, MAGS, List.range_succ]

/-- The clamp does not move a value across a threshold. -/
lemma mid_lt : ∀ i ∈ List.range 7, (e2m1Grid i + e2m1Grid (i + 1)) / 2 < 6 := by
  norm_num [e2m1Grid, MAGS, List.range_succ]

/-- The code is the sign over the code of the nearest magnitude. -/
lemma e2m1Codes_spec (x : ℚ) :
    ∃ k, NearestEven e2m1Grid 7 |x| k ∧ e2m1Codes x = (if x < 0 then 8 else 0) + k := by
  have hcount : MID.countP (fun m => min |x| FP4_MAX > m) =
      (List.range 7).countP fun i => (e2m1Grid i + e2m1Grid (i + 1)) / 2 < |x| := by
    rw [mid_eq, List.countP_map]
    apply List.countP_congr
    intro i hi
    have hlt := mid_lt i hi
    simp only [Function.comp_apply, gt_iff_lt, lt_min_iff, decide_eq_true_eq]
    exact and_iff_left hlt
  have htie : (MID.zip ODD).countP (fun p => min |x| FP4_MAX = p.1 ∧ p.2) =
      (List.range 7).countP fun i => |x| = (e2m1Grid i + e2m1Grid (i + 1)) / 2 ∧ i % 2 = 1 := by
    rw [mid_zip_odd, List.countP_map]
    apply List.countP_congr
    intro i hi
    have hlt := mid_lt i hi
    have hmin : min |x| FP4_MAX = (e2m1Grid i + e2m1Grid (i + 1)) / 2 ↔
        |x| = (e2m1Grid i + e2m1Grid (i + 1)) / 2 := by
      obtain hle | hle := le_total |x| FP4_MAX
      · rw [min_eq_left hle]
      · rw [min_eq_right hle]
        have h6 : FP4_MAX = 6 := rfl
        constructor <;> intro he <;> linarith
    simp only [Function.comp_apply, decide_eq_true_eq, hmin]
  have hnear := nearestEven_count e2m1_signMagnitude.mono (abs_nonneg x)
  rw [← hcount, ← htie] at hnear
  refine ⟨_, hnear, ?_⟩
  have hor : ∀ k ≤ 7, ∀ neg : Bool, k ||| (if neg then 1 else 0) <<< 3 = (if neg then 8 else 0) + k := by decide
  have hbit := hor _ hnear.le (decide (x < 0))
  simp only [decide_eq_true_eq] at hbit
  exact hbit

/-- A code is that of the Rust encoder, which gives a negative zero its sign. -/
lemma e2m1Codes_eq (x : ℚ) : e2m1Codes x = f32ToE2m1 (Num.ofRat x) := by
  obtain ⟨k, hk, he⟩ := e2m1Codes_spec x
  obtain ⟨j, hj, he'⟩ := f32ToE2m1_spec (Num.ofRat x)
  have hkj : k = j := hk.unique e2m1_signMagnitude.mono hj
  have hneg : (Num.ofRat x).neg = decide (x < 0) := rfl
  rw [he, he', hkj, hneg]
  simp only [decide_eq_true_eq]

lemma ofRat_val (x : ℚ) : (Num.ofRat x).val = x := by
  unfold Num.ofRat Num.val
  by_cases h : x < 0
  · simp [h, abs_of_neg h]
  · simp [h, abs_of_nonneg (not_lt.mp h)]

/-- The table and the sign are the decoder of the Rust side. -/
lemma codeVal_eq (c : ℕ) : codeVal c = (e2m1ToF32 c).val := by
  by_cases h : c &&& 8 = 0 <;> simp [codeVal, e2m1ToF32, Num.val, h, Nat.pos_iff_ne_zero]

/-- Same magnitude code as the Rust encoder, for a zero of either sign too. -/
lemma e2m1Codes_magnitude (x : DsMla.Num) : e2m1Codes x.val &&& 7 = f32ToE2m1 x &&& 7 := by
  obtain ⟨k, hk, he⟩ := e2m1Codes_spec x.val
  obtain ⟨j, hj, he'⟩ := f32ToE2m1_spec x
  rw [x.abs_val] at hk
  have hkj : k = j := hk.unique e2m1_signMagnitude.mono hj
  have hlow : ∀ k ≤ 7, (0 + k) &&& 7 = k ∧ (8 + k) &&& 7 = k := by decide
  obtain ⟨h0, h8⟩ := hlow j hj.le
  rw [he, he', hkj]
  split_ifs <;> simp only [h0, h8]

/-- What is asked of the codes: the nearest signed value, the even code of two, saturation at 6. -/
structure NearestCode (x : ℚ) (code : ℕ) : Prop where
  lt : code < 16
  sign : 8 ≤ code ↔ x < 0
  nearest : ∀ c < 16, |x - codeVal code| ≤ |x - codeVal c|
  even : ∀ c < 16, |x - codeVal c| = |x - codeVal code| → codeVal c = codeVal code ∨ Even code
  saturates : FP4_MAX ≤ |x| → |codeVal code| = FP4_MAX

theorem e2m1Codes_nearest (x : ℚ) : NearestCode x (e2m1Codes x) := by
  obtain ⟨hlt, v, hv, -, hnear⟩ := encoders_correct.2.nearest (Num.ofRat x)
  rw [← e2m1Codes_eq] at hlt hv
  have hval : codeVal (e2m1Codes x) = v.val := by
    rw [codeVal_eq]
    exact congrArg Num.val (Option.some.inj hv)
  constructor
  case lt => exact hlt
  case sign =>
    obtain ⟨k, hk, he⟩ := e2m1Codes_spec x
    have hle := hk.le
    rw [he]
    split_ifs with h <;> simp only [h, iff_true, iff_false] <;> omega
  case nearest =>
    intro c hc
    have h := (hnear c hc _ rfl).1
    rwa [ofRat_val, ← codeVal_eq, ← hval] at h
  case even =>
    intro c hc
    have h := (hnear c hc _ rfl).2
    rw [ofRat_val, ← codeVal_eq, ← hval, ← e2m1Codes_eq] at h
    exact h
  case saturates =>
    intro h
    obtain ⟨u, hu, -, hmag⟩ := encoders_correct.2.saturates (Num.ofRat x) h
    rw [← e2m1Codes_eq] at hu
    rw [hval, ← Option.some.inj (hu.symm.trans hv), Num.abs_val, hmag]
    rfl

/-! ## The error of an element -/

lemma codeVal_sign (x : ℚ) {k : ℕ} (hk : k ≤ 7) :
    codeVal ((if x < 0 then 8 else 0) + k) = (if x < 0 then -1 else 1) * e2m1Grid k := by
  have hbits := e2m1_bits (decide (x < 0)) k hk
  simp only [decide_eq_true_eq] at hbits
  obtain ⟨-, hmag, hsign⟩ := hbits
  simp only [codeVal, hmag, gt_iff_lt, Nat.pos_iff_ne_zero, hsign]
  exact mul_comm _ _

/-- A weight is clipped at 6, or off by at most half a step of the grid. -/
lemma code_error {g s : ℚ} (hg : 0 < g) (hs : 1 / 10 ^ 30 ≤ s) (x : ℚ) :
    6 < |x| * g / s ∨ ∃ m < 7, e2m1Grid m ≤ |x| * g / s ∧ |x| * g / s ≤ e2m1Grid (m + 1) ∧
      |codeVal (e2m1Codes (x * invOf g s)) * s / g - x| ≤ (e2m1Grid (m + 1) - e2m1Grid m) / 2 * (s / g) := by
  have hpos : 0 < s := lt_of_lt_of_le (by norm_num) hs
  have hinv : invOf g s = g / s := by
    rw [invOf, if_neg hpos.ne', max_eq_left hs]
  have habs : |x * (g / s)| = |x| * g / s := by
    rw [abs_mul, abs_of_pos (div_pos hg hpos), mul_div_assoc]
  obtain ⟨k, hk, he⟩ := e2m1Codes_spec (x * (g / s))
  rw [hinv, he, codeVal_sign _ hk.le, ← habs]
  generalize ht : x * (g / s) = t at hk
  obtain hlt | hle := lt_or_ge 6 |t|
  · exact .inl hlt
  obtain ⟨m, hm, hlow, hhigh⟩ := exists_neighbours (g := e2m1Grid) (n := 6) (abs_nonneg t) hle
  refine .inr ⟨m, by omega, hlow, hhigh, ?_⟩
  have hsign : |(if t < 0 then -1 else 1) * e2m1Grid k - t| = |(|t| - e2m1Grid k)| := by
    split_ifs with hneg
    · rw [abs_of_neg hneg, neg_one_mul, ← neg_add', abs_neg, add_comm, ← abs_neg (-t - _)]
      congr 1
      ring
    · rw [abs_of_nonneg (not_lt.mp hneg), one_mul, abs_sub_comm]
  have hhalf : |(|t| - e2m1Grid k)| ≤ (e2m1Grid (m + 1) - e2m1Grid m) / 2 := by
    have hl := hk.nearest m (by omega)
    have hr := hk.nearest (m + 1) (by omega)
    rw [abs_of_nonneg (sub_nonneg.mpr hlow)] at hl
    rw [abs_of_nonpos (sub_nonpos.mpr hhigh)] at hr
    linarith
  have hsplit : (if t < 0 then -1 else 1) * e2m1Grid k * s / g - x =
      ((if t < 0 then -1 else 1) * e2m1Grid k - t) * (s / g) := by
    rw [← ht]
    field_simp
  rw [hsplit, abs_mul, hsign, abs_of_pos (div_pos hpos hg)]
  exact mul_le_mul_of_nonneg_right hhalf (div_pos hpos hg).le

/-! ## The scale of a block -/

lemma bmax_nonneg (blk : ℕ → ℚ) : 0 ≤ bmax blk := by
  have h : ∀ (l : List ℚ) (m : ℚ), 0 ≤ m → 0 ≤ l.foldl max m := by
    intro l
    induction l with
    | nil => exact fun m hm => hm
    | cons x l ih => exact fun m hm => ih _ (hm.trans (le_max_left m x))
  exact h _ 0 le_rfl

/-- The scale of a positive candidate is zero or far above the smallest divisor. -/
lemma e4m3Val_scaleOf {g c : ℚ} (hg : 0 < g) (hc : 0 < c) (blk : ℕ → ℚ) :
    e4m3Val (scaleOf g blk c) = 0 ∨ 1 / 10 ^ 30 ≤ e4m3Val (scaleOf g blk c) := by
  have hx : 0 ≤ min (bmax blk * (g / c)) E4M3_MAX :=
    le_min (mul_nonneg (bmax_nonneg blk) (div_pos hg hc).le) (by norm_num [E4M3_MAX])
  unfold scaleOf toE4m3
  generalize min (bmax blk * (g / c)) E4M3_MAX = x at hx
  obtain ⟨k, hk, he⟩ := f32ToE4m3_spec (Num.ofRat x)
  obtain ⟨v, hv, hneg, hmag⟩ := e4m3ToF32_eq (Num.ofRat x).neg hk.le
  have hsign : v.neg = false := hneg.trans (decide_eq_false hx.not_gt)
  have hval : e4m3Val (f32ToE4m3 (Num.ofRat x)) = e4m3Grid k := by
    rw [e4m3Val, he, hv, Option.elim_some, Num.val_of_false hsign, hmag]
  rw [hval]
  obtain rfl | hpos := Nat.eq_zero_or_pos k
  · exact .inl e4m3_signMagnitude.zero
  · right
    have hone : e4m3Grid 1 ≤ e4m3Grid k :=
      e4m3_signMagnitude.mono.monotoneOn (show 1 ≤ 126 by decide) hk.le hpos
    rw [e4m3Grid_values.1] at hone
    exact le_trans (by norm_num) hone

/-! ## The search -/

/-- What the loop over the candidates keeps for a block. -/
lemma foldl_searchStep (g : ℚ) (blk : ℕ → ℕ → ℕ → ℚ) (l : List ℚ) (b : Best) :
    ∃ best, l.foldl (fun best c => some (searchStep g blk best c)) (some b) = some best ∧
      ∀ r q, (best.err r q, best.sf r q, best.code r q) = cheapest (errOf g (blk r q))
        (fun c => (scaleOf g (blk r q) c, codeOf g (blk r q) c)) l (b.err r q, b.sf r q, b.code r q) := by
  induction l generalizing b with
  | nil => exact ⟨b, rfl, fun _ _ => rfl⟩
  | cons c l ih =>
    obtain ⟨best, hfold, hbest⟩ := ih (searchStep g blk (some b) c)
    refine ⟨best, hfold, fun r q => ?_⟩
    rw [hbest, cheapest_cons]
    congr 1
    simp only [searchStep, decide_eq_true_eq]
    split_ifs <;> rfl

/-- No candidate raises. -/
lemma foldlM_search {g : ℚ} {blk : ℕ → ℕ → ℕ → ℚ} {l : List ℚ} (h0 : 0 ∉ l) (b : Option Best) :
    l.foldlM (fun best c => if c = 0 then (.error "ZeroDivisionError" : Except String (Option Best))
      else .ok (some (searchStep g blk best c))) b =
      .ok (l.foldl (fun best c => some (searchStep g blk best c)) b) := by
  induction l generalizing b with
  | nil => rfl
  | cons c l ih =>
    rw [List.mem_cons, not_or] at h0
    rw [List.foldlM_cons, if_neg (Ne.symm h0.1), List.foldl_cons]
    exact ih h0.2 _

/-! ## Packing -/

/-- Every code comes back at its column. -/
lemma unpack {code : ℕ → ℕ} (h : ∀ c, code c < 16) (c : ℕ) :
    (if c % 2 = 0 then pack code (c / 2) &&& 0xF else pack code (c / 2) >>> 4) = code c := by
  have hbits : ∀ hi < 16, hi <<< 4 % 2 ^ 8 = hi <<< 4 := by decide
  rw [pack, hbits _ (h _)]
  obtain ⟨hlo, hhi⟩ := nibbles _ (h (2 * (c / 2))) _ (h (2 * (c / 2) + 1))
  rw [hlo, hhi]
  split_ifs with hc
  · congr 1
    omega
  · congr 1
    omega

/-! ## A quantized matrix -/

/-- The squared error of a block of a matrix read back. -/
def blockError (w deq : ℕ → ℕ → ℚ) (r b : ℕ) : ℚ :=
  ((List.range GROUP).map fun i => (deq r (b * GROUP + i) - w r (b * GROUP + i)) ^ 2).sum

/-- Each block keeps the scale and the codes of one candidate, and is read back from them. -/
structure Kept (w : ℕ → ℕ → ℚ) (g : ℚ) (search : List ℚ) (q : Quantized) (chosen : ℕ → ℕ → ℚ) : Prop where
  first : ∀ r b, FirstLeast (errOf g (blocks w r b)) search (chosen r b)
  scale : ∀ r b, q.sf r b = scaleOf g (blocks w r b) (chosen r b)
  value : ∀ r c, dequantizeWeight q r c =
    codeVal (codeOf g (blocks w r (c / GROUP)) (chosen r (c / GROUP)) (c % GROUP)) *
      e4m3Val (scaleOf g (blocks w r (c / GROUP)) (chosen r (c / GROUP))) / g

lemma multiplier_pos (amax : ℚ) : 0 < multiplier amax :=
  div_pos (by norm_num [GLOBAL, FP4_MAX, E4M3_MAX]) (lt_max_of_lt_right (by norm_num))

theorem quantizeWeight_kept {k : ℕ} (w : ℕ → ℕ → ℚ) (amax : ℚ) (search : List ℚ) (hk : GROUP ∣ k)
    (hne : search ≠ []) (h0 : 0 ∉ search) :
    ∃ q chosen, quantizeWeight k w amax search = .ok q ∧ Kept w (multiplier amax) search q chosen := by
  cases search with
  | nil => exact absurd rfl hne
  | cons c l =>
    generalize hg : multiplier amax = g
    obtain ⟨best, hfold, hbest⟩ := foldl_searchStep g (blocks w) l (searchStep g (blocks w) none c)
    have hcand (r b : ℕ) : ∃ a, FirstLeast (errOf g (blocks w r b)) (c :: l) a ∧
        best.sf r b = scaleOf g (blocks w r b) a ∧ best.code r b = codeOf g (blocks w r b) a := by
      obtain ⟨a, hfirst, he⟩ := cheapest_head (errOf g (blocks w r b))
        (fun c => (scaleOf g (blocks w r b) c, codeOf g (blocks w r b) c)) c l
      have heq := (hbest r b).trans he
      simp only [Prod.mk.injEq] at heq
      exact ⟨a, hfirst, heq.2⟩
    choose chosen hfirst hsf hcode using hcand
    refine ⟨⟨fun r => pack fun c => best.code r (c / GROUP) (c % GROUP), best.sf, 1 / g⟩, chosen, ?_, hfirst, hsf, ?_⟩
    · rw [quantizeWeight, if_neg (by simpa using Nat.mod_eq_zero_of_dvd hk), hg]
      dsimp only
      rw [foldlM_search h0, List.foldl_cons, hfold]
      rfl
    · intro r c'
      have hlt : ∀ c, best.code r (c / GROUP) (c % GROUP) < 16 := by
        intro c
        rw [hcode]
        exact (e2m1Codes_nearest _).lt
      rw [dequantizeWeight, unpack hlt]
      dsimp only
      rw [hsf, hcode, mul_one_div]

/-- The error of a block is that of its candidate. -/
lemma Kept.blockError_eq {w : ℕ → ℕ → ℚ} {g : ℚ} {search : List ℚ} {q : Quantized} {chosen : ℕ → ℕ → ℚ}
    (h : Kept w g search q chosen) (r b : ℕ) :
    blockError w (dequantizeWeight q) r b = errOf g (blocks w r b) (chosen r b) := by
  unfold blockError errOf
  congr 1
  apply List.map_congr_left
  intro i hi
  have hlt : i < 16 := List.mem_range.mp hi
  have hdiv : (b * GROUP + i) / GROUP = b := by
    unfold GROUP
    omega
  have hmod : (b * GROUP + i) % GROUP = i := by
    unfold GROUP
    omega
  rw [h.value, hdiv, hmod]
  rfl

/-- Codes are nearest, blocks keep the best candidate and are read back from it, and no weight is off by more
than half a step unless it is clipped. -/
theorem quantize_weight {k : ℕ} (w : ℕ → ℕ → ℚ) (amax : ℚ) (search : List ℚ) (hk : GROUP ∣ k)
    (hne : search ≠ []) (h0 : 0 ∉ search) :
    (∀ x, NearestCode x (e2m1Codes x)) ∧ (∀ x : DsMla.Num, e2m1Codes x.val &&& 7 = f32ToE2m1 x &&& 7) ∧
    ∃ q chosen, quantizeWeight k w amax search = .ok q ∧ Kept w (multiplier amax) search q chosen ∧
      (FP4_MAX ∈ search → ∃ p, quantizeWeight k w amax [FP4_MAX] = .ok p ∧ ∀ r b,
        blockError w (dequantizeWeight q) r b ≤ blockError w (dequantizeWeight p) r b) ∧
      ∀ r c, 0 < chosen r (c / GROUP) → e4m3Val (q.sf r (c / GROUP)) ≠ 0 →
        6 < |w r c| * multiplier amax / e4m3Val (q.sf r (c / GROUP)) ∨
        ∃ m < 7, e2m1Grid m ≤ |w r c| * multiplier amax / e4m3Val (q.sf r (c / GROUP)) ∧
          |w r c| * multiplier amax / e4m3Val (q.sf r (c / GROUP)) ≤ e2m1Grid (m + 1) ∧
          |dequantizeWeight q r c - w r c| ≤
            (e2m1Grid (m + 1) - e2m1Grid m) / 2 * (e4m3Val (q.sf r (c / GROUP)) / multiplier amax) := by
  obtain ⟨q, chosen, hq, hkept⟩ := quantizeWeight_kept w amax search hk hne h0
  refine ⟨e2m1Codes_nearest, e2m1Codes_magnitude, q, chosen, hq, hkept, fun h6 => ?_, fun r c hpos hs => ?_⟩
  · obtain ⟨p, plain, hp, hplain⟩ := quantizeWeight_kept w amax [FP4_MAX] hk (List.cons_ne_nil FP4_MAX [])
      (by simp [FP4_MAX])
    refine ⟨p, hp, fun r b => ?_⟩
    rw [hkept.blockError_eq, hplain.blockError_eq, List.mem_singleton.mp (hplain.first r b).mem]
    exact (hkept.first r b).le _ h6
  · have hcol : blocks w r (c / GROUP) (c % GROUP) = w r c := by
      rw [blocks, mul_comm, Nat.div_add_mod]
    rw [hkept.scale] at hs ⊢
    have hmin := (e4m3Val_scaleOf (multiplier_pos amax) hpos (blocks w r (c / GROUP))).resolve_left hs
    rw [hkept.value, codeOf, hcol]
    exact code_error (multiplier_pos amax) hmin (w r c)

theorem quantize_weight_mse :
    ∃ q chosen, quantizeWeight 32 (fun r c => r + c / 8 - 1) 4 [6, 5, 9 / 2, 4] = .ok q ∧
      Kept (fun r c => r + c / 8 - 1) (multiplier 4) [6, 5, 9 / 2, 4] q chosen := by
  obtain ⟨-, -, q, chosen, hq, hkept, -⟩ := quantize_weight (k := 32) (fun r c => r + c / 8 - 1) 4
    [6, 5, 9 / 2, 4] (by decide) (by decide) (by norm_num)
  exact ⟨q, chosen, hq, hkept⟩

/-- One weight of one and one that a negative candidate takes for a weight of its own size. -/
def outlier (_ c : ℕ) : ℚ := if c = 0 then 1 else if c = 1 then 1 / (GLOBAL * 10 ^ 30) else 0

/-- Without a candidate, or with the candidate zero, nothing is returned; and a negative candidate is off by more
than half a step at a weight that is not clipped. -/
theorem bad_candidates :
    (∀ q, quantizeWeight 16 outlier 1 [] ≠ .ok q) ∧ (∀ q, quantizeWeight 16 outlier 1 [6, 0] ≠ .ok q) ∧
    ∃ q, quantizeWeight 16 outlier 1 [-6] = .ok q ∧ e4m3Val (q.sf 0 0) ≠ 0 ∧
      |outlier 0 1| * multiplier 1 / |e4m3Val (q.sf 0 0)| ≤ e2m1Grid 1 ∧
      (e2m1Grid 1 - e2m1Grid 0) / 2 * (|e4m3Val (q.sf 0 0)| / multiplier 1) <
        |dequantizeWeight q 0 1 - outlier 0 1| := by
  refine ⟨fun q h => ?_, fun q h => ?_, ?_⟩
  · cases h
  · simp [quantizeWeight, GROUP] at h
    cases h
  · obtain ⟨q, chosen, hq, hkept⟩ := quantizeWeight_kept (k := 16) outlier 1 [-6] (by decide) (by decide)
      (by decide)
    have hchosen (r b : ℕ) : chosen r b = -6 := List.mem_singleton.mp (hkept.first r b).mem
    have hscale : e4m3Val (q.sf 0 0) = -448 := by
      rw [hkept.scale, hchosen]
      decide +kernel
    have hvalue : dequantizeWeight q 0 1 = -1 / 6 := by
      rw [hkept.value, hchosen]
      decide +kernel
    refine ⟨q, hq, ?_⟩
    rw [hscale, hvalue]
    with_unfolding_all decide

end SuffixHybrid.Nvfp4
