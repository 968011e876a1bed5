import Mathlib.Data.Int.Bitwise
import Mathlib.Tactic.Linarith
import SuffixHybrid.Lib.Except
import SuffixHybrid.Lib.Grid

/-!
# Plan and launcher

The numbers of a split-K GEMM: what the Python `plan` returns, what the launcher derives and checks. Both sides
round up the same quotients, and a second rounding changes nothing (`plan_ranges`). The functions of the Python
module, whose integers are `ℤ`, are in the namespace `Py`.
-/

namespace SuffixHybrid.NvGemm
open Lib

/-! ## Launcher -/

/-- `MAX_M`. -/
def MAX_M : ℕ := 64

/-- `MAX_SPLITS`. -/
def MAX_SPLITS : ℕ := 64

/-- `STAGE_FLOATS`. -/
def STAGE_FLOATS : ℕ := 4096

/-- `FUSE_QUANT`. -/
def FUSE_QUANT : ℕ := 1

/-- `FUSE_REDUCE`. -/
def FUSE_REDUCE : ℕ := 2

/-- `MAX_DYN_SMEM`. -/
def MAX_DYN_SMEM : ℕ := 99 * 1024

/-- `tiles_for`. -/
def tilesFor (m : ℕ) : ℕ := cdiv m 16

/-- `split_ranges`. -/
def splitRanges (k splits : ℕ) : ℕ × ℕ :=
  let steps := k / 64
  let kps := cdiv steps splits
  (kps, cdiv steps kps)

/-- `fused_layout`. -/
def fusedLayout (m kps splits flags : ℕ) : ℕ × ℕ :=
  let q := if flags &&& FUSE_QUANT ≠ 0 then m * (kps * 32 + 16) + m * 4 * (kps ||| 1) else 0
  let ch := min (max (STAGE_FLOATS / (32 * m) - 1) 1) splits
  let r := if flags &&& FUSE_REDUCE ≠ 0 ∧ 1 < splits then (ch + 1) * m * 32 * 4 else 0
  (16 + max q r, ch)

/-- What the launcher reads of a tensor. -/
structure T where
  shape : List ℕ
  stride : List ℕ
  dtype : String

/-- `need`: the strides are compared from the last dimension on. -/
def need (name : String) (t : T) (dtype : String) (shape : List ℕ) (contiguous : Bool) : Except String Unit :=
  if t.dtype ≠ dtype ∨ t.shape ≠ shape then
    .error s!"{name}: got {t.dtype} {t.shape}, need {dtype} {shape}"
  else if contiguous ∧ ((t.shape.zip t.stride).foldr (fun p w => (p.1 * w.1, w.2 && (p.1 ≤ 1 || p.2 = w.1)))
      (1, true)).2 = false then
    .error s!"{name} must be contiguous"
  else if t.stride.getLast?.getD 1 ≠ 1 then .error s!"{name}: last dim must be dense"
  else .ok ()

/-- `validate_w`, with the workspace's size for the splits that are launched. -/
def validateW (w wsf out partials : T) (m k splits : ℕ) : Except String ℕ := do
  let n := w.shape.headD 0
  if ¬(1 ≤ m ∧ m ≤ MAX_M) ∨ k = 0 ∨ k % 64 ≠ 0 ∨ n = 0 ∨ n % 16 ≠ 0 then
    .error s!"NVFP4 decode GEMM needs 1 <= M <= {MAX_M}, K % 64 == 0, N % 16 == 0 (M={m} K={k} N={n})"
  else
    need "w" w "torch.uint8" [n, k / 2] true
    let sfRows := cdiv n 128 * 128
    let sfCols := cdiv (k / 16) 4 * 4
    if wsf.shape.prod ≠ sfRows * sfCols ∨ ¬(wsf.dtype = "torch.float8_e4m3fn" ∨ wsf.dtype = "torch.uint8") then
      .error
        s!"w_sf must hold the swizzled [{sfRows}, {sfCols}] e4m3 scales (got {wsf.dtype} {wsf.shape})"
    else
      need "out" out "torch.bfloat16" [m, n] false
      if ¬(1 ≤ splits ∧ splits ≤ MAX_SPLITS) ∨ k / 64 < splits then .error s!"splits={splits} out of range"
      else
        let launched := (splitRanges k splits).2
        let needPart := if 1 < launched then launched * m * n else 0
        if partials.dtype ≠ "torch.float32" ∨ partials.shape.prod < needPart then
          .error s!"partial workspace must be float32 with >= {needPart} elements (splits x M x N)"
        else .ok n

/-- The numbers that `validate_w` accepts. -/
structure Accepted (n m k splits : ℕ) : Prop where
  m_pos : 0 < m
  m_le : m ≤ MAX_M
  k_pos : 0 < k
  k_mod : k % 64 = 0
  n_pos : 0 < n
  n_mod : n % 16 = 0
  splits_pos : 0 < splits
  splits_le : splits ≤ MAX_SPLITS
  splits_steps : splits ≤ k / 64

lemma accepted_of_validateW {w wsf out partials : T} {m k splits n : ℕ}
    (h : validateW w wsf out partials m k splits = .ok n) : Accepted n m k splits := by
  unfold validateW at h
  simp only [ite_error_eq_ok, bind_eq_ok] at h
  obtain ⟨hdim, -, -, -, -, -, hsplits, -, hn⟩ := h
  have hn := Except.ok.inj hn
  push Not at hdim hsplits
  obtain ⟨hm, hk, hk64, hn0, hn16⟩ := hdim
  rw [hn] at hn0 hn16
  exact ⟨hm.1, hm.2, Nat.pos_of_ne_zero hk, hk64, Nat.pos_of_ne_zero hn0, hn16, hsplits.1.1, hsplits.1.2, hsplits.2⟩

/-! ## Plan -/

namespace Py

/-- `//`. -/
def floorDiv (a b : ℤ) : Except String ℤ := if b = 0 then .error "ZeroDivisionError" else .ok (a.fdiv b)

/-- `-(-a // b)`. -/
def ceilDiv (a b : ℤ) : Except String ℤ := do
  let q ← floorDiv (-a) b
  return -q

/-- `TARGET_CTAS`, for `SMS` of 188. -/
def TARGET_CTAS : ℤ := 4 * 188

/-- `MIN_KPS`. -/
def MIN_KPS : ℤ := 2

/-- `PARTIAL_DIV`. -/
def PARTIAL_DIV : ℤ := 128

/-- `FUSED_QUANT_MAX_M`. -/
def FUSED_QUANT_MAX_M : ℤ := 64

/-- `QUANT_SMEM_MAX`. -/
def QUANT_SMEM_MAX : ℤ := 20 * 1024

/-- `PF_SHIFT`. -/
def PF_SHIFT : ℕ := 8

/-- `PF_MAX`. -/
def PF_MAX : ℤ := 255

/-- `tiles_for`. -/
def tilesFor (m : ℤ) : ℤ := -((-m).fdiv 16)

/-- `splits_for`. -/
def splitsFor (n k m : ℤ) : Except String ℤ := do
  let ctas := -((-n).fdiv 32)
  let want ← ceilDiv TARGET_CTAS ctas
  let traffic ← floorDiv k (PARTIAL_DIV * tilesFor m)
  let cap := min (MAX_SPLITS : ℤ) (min ((k.fdiv 64).fdiv MIN_KPS) traffic)
  return max 1 (min want cap)

/-- `quant_smem`. -/
def quantSmem (m kps : ℤ) : ℤ := m * (kps * 32 + 16) + m * 4 * Int.lor kps 1

/-- `fused_layout`. -/
def fusedLayout (m kps splits : ℤ) (flags : ℕ) : Except String (ℤ × ℤ) := do
  let q := if flags &&& FUSE_QUANT ≠ 0 then quantSmem m kps else 0
  let stage ← floorDiv (STAGE_FLOATS : ℤ) (32 * m)
  let ch := min (max (stage - 1) 1) splits
  let r := if flags &&& FUSE_REDUCE ≠ 0 ∧ 1 < splits then (ch + 1) * m * 32 * 4 else 0
  return (16 + max q r, ch)

/-- What `fused_mode`, `fused_max_m` and `pf_env` read of the environment. -/
structure Env where
  fusedMode : Except String String
  fusedMaxM : Except String ℤ
  pfEnv : Except String (Option ℤ)

/-- The `fused` argument. -/
inductive Fused where
  | flag (b : Bool)
  | name (mode : String)

/-- What `plan` returns. -/
structure Plan where
  tiles : ℤ
  splits : ℤ
  kps : ℤ
  grid : ℤ × ℤ
  ctas : ℤ
  entry : String
  partials : ℤ
  fusedQuant : Bool
  fusedReduce : Bool
  flags : ℕ
  pf : ℤ
  smem : ℤ
  ch : ℤ
  launches : ℤ

/-- The requested splits, or those of the policy. -/
def requested (n k m : ℤ) : Option ℤ → Except String ℤ
  | none => splitsFor n k m
  | some s => .ok s

/-- The steps per split and the splits of `plan`. -/
def planSplits (n k m : ℤ) (splits : Option ℤ) : Except String (ℤ × ℤ) := do
  let steps := k.fdiv 64
  let s ← requested n k m splits
  let kps ← ceilDiv steps s
  let s ← ceilDiv steps kps
  return (kps, s)

/-- The fusion mode of `plan`. -/
def planMode (env : Env) (m : ℤ) : Option Fused → Except String String
  | none => do
    let mode ← env.fusedMode
    let maxM ← env.fusedMaxM
    return if maxM < m then "off" else mode
  | some (.flag b) => .ok (if b then "all" else "off")
  | some (.name mode) => .ok mode

/-- The lookahead of `plan`. -/
def planPf (env : Env) : Option ℤ → Except String ℤ
  | none => env.pfEnv.map (·.getD 0)
  | some pf => .ok pf

/-- `plan`. -/
def plan (env : Env) (n k m : ℤ) (splits : Option ℤ) (fused : Option Fused) (prequant : Bool) (pf : Option ℤ) :
    Except String Plan := do
  let tiles := tilesFor m
  let (kps, s) ← planSplits n k m splits
  let grid := (-((-n).fdiv 32), s)
  let mode ← planMode env m fused
  let fq := mode == "all" && !prequant && m ≤ FUSED_QUANT_MAX_M && quantSmem m kps ≤ QUANT_SMEM_MAX
  let fr := mode != "off" && 1 < s
  let pf ← planPf env pf
  if ¬(0 ≤ pf ∧ pf ≤ PF_MAX) then .error s!"pf={pf}: want 0..{PF_MAX}"
  else
    let flags := FUSE_QUANT * fq.toNat ||| FUSE_REDUCE * fr.toNat ||| pf.toNat <<< PF_SHIFT
    let (smem, ch) ← fusedLayout m kps s flags
    let letter := if flags ≠ 0 then "f" else "t"
    return {
      tiles := tiles
      splits := s
      kps := kps
      grid := grid
      ctas := grid.1 * grid.2
      entry := s!"nvfp4_gemm_{letter}{tiles}"
      partials := if 1 < s then s * m * n else 0
      fusedQuant := fq
      fusedReduce := fr
      flags := flags
      pf := pf
      smem := if flags ≠ 0 then smem else 0
      ch := ch
      launches := 1 + (!fq && !prequant).toNat + (1 < s && !fr : Bool).toNat }

/-- `partial_elems`: the largest workspace over the top rows of the tiles. -/
def partialElems (env : Env) (n k maxM : ℤ) : Except String ℤ := do
  let ms := (List.range (tilesFor maxM).toNat).map fun t : ℕ => min (16 * ((t : ℤ) + 1)) maxM
  let sizes ← ms.mapM fun m => do
    let p ← plan env n k m none none false none
    return p.partials
  match sizes.max? with
  | none => .error "ValueError"
  | some e => .ok e

/-! ## Rounding -/

lemma fdiv_cast (a b : ℕ) : (a : ℤ).fdiv b = (a / b : ℕ) := by
  rw [Int.fdiv_eq_ediv_of_nonneg _ (Int.natCast_nonneg b), Int.natCast_ediv]

lemma neg_fdiv_neg (a : ℕ) {b : ℕ} (hb : 0 < b) : -(-(a : ℤ)).fdiv b = (cdiv a b : ℕ) := by
  have hb' : (0 : ℤ) < b := Int.natCast_pos.mpr hb
  rw [Int.fdiv_eq_ediv_of_nonneg _ hb'.le]
  have hle : -(-(a : ℤ) / b) ≤ (cdiv a b : ℕ) := by
    rw [neg_le, Int.le_ediv_iff_mul_le hb', neg_mul, neg_le_neg_iff, mul_comm]
    exact_mod_cast le_mul_cdiv hb
  obtain ⟨q, hq⟩ := Int.eq_ofNat_of_zero_le (neg_nonneg.mpr (Int.ediv_nonpos_of_nonpos_of_neg
    (neg_nonpos.mpr (Int.natCast_nonneg a)) hb'))
  refine le_antisymm hle ?_
  have hlow := Int.ediv_mul_le (-(a : ℤ)) hb'.ne'
  rw [neg_eq_iff_eq_neg.mp hq] at hlow
  rw [hq]
  have hmul : a ≤ b * q := by
    have : (a : ℤ) ≤ b * q := by linarith
    exact_mod_cast this
  exact_mod_cast (cdiv_le_iff hb).mpr hmul

lemma tilesFor_cast (m : ℕ) : tilesFor m = (NvGemm.tilesFor m : ℕ) := neg_fdiv_neg m (by decide)

lemma ceilDiv_ok {a b c : ℤ} : ceilDiv a b = .ok c ↔ b ≠ 0 ∧ -(-a).fdiv b = c := by
  rw [ceilDiv, bind_eq_ok]
  simp only [floorDiv, ite_error_eq_ok, pure_eq_ok, Except.ok.injEq]
  constructor
  · rintro ⟨q, ⟨hb, rfl⟩, hc⟩
    exact ⟨hb, hc⟩
  · rintro ⟨hb, hc⟩
    exact ⟨_, ⟨hb, rfl⟩, hc⟩

/-- The splits come from a positive number of splits. -/
lemma planSplits_ok {n m : ℤ} {k : ℕ} {splits : Option ℤ} {kps s : ℤ} (h : planSplits n k m splits = .ok (kps, s))
    (hs : 0 < s) : ∃ s₀ : ℕ, 0 < s₀ ∧ requested n k m splits = .ok (s₀ : ℤ) ∧ kps = (cdiv (k / 64) s₀ : ℕ) ∧
      s = (cdiv (k / 64) (cdiv (k / 64) s₀) : ℕ) := by
  simp only [planSplits, bind_eq_ok, ceilDiv_ok, pure_eq_ok, Prod.mk.injEq] at h
  obtain ⟨s₀, hs₀, kps, ⟨hne₀, rfl⟩, s, ⟨hne, rfl⟩, rfl, rfl⟩ := h
  have hsteps : (k : ℤ).fdiv 64 = (k / 64 : ℕ) := fdiv_cast k 64
  rw [hsteps] at hs hne ⊢
  generalize k / 64 = steps at hs hne ⊢
  have hneg : -(steps : ℤ) ≤ 0 := neg_nonpos.mpr (Int.natCast_nonneg steps)
  have hpos : 0 < s₀ := by
    by_contra hle
    have hkps := Int.fdiv_nonneg_of_nonpos_of_nonpos hneg (not_lt.mp hle)
    have hs' := Int.fdiv_nonneg_of_nonpos_of_nonpos hneg (neg_nonpos.mpr hkps)
    omega
  obtain ⟨s₀, rfl⟩ := Int.eq_ofNat_of_zero_le hpos.le
  have hpos := Int.natCast_pos.mp hpos
  rw [neg_fdiv_neg _ hpos] at hs hne ⊢
  have hkps : 0 < cdiv steps s₀ := Nat.pos_of_ne_zero fun h0 => hne (by rw [h0]; rfl)
  exact ⟨s₀, hpos, hs₀, rfl, neg_fdiv_neg _ hkps⟩

/-- What the launcher needs of a plan. -/
lemma plan_ok {env : Env} {n k m : ℤ} {splits : Option ℤ} {fused : Option Fused} {prequant : Bool} {pf : Option ℤ}
    {p : Plan} (h : plan env n k m splits fused prequant pf = .ok p) :
    planSplits n k m splits = .ok (p.kps, p.splits) ∧ p.tiles = tilesFor m ∧
      (p.partials = if 1 < p.splits then p.splits * m * n else 0) ∧
      ∃ smem, fusedLayout m p.kps p.splits p.flags = .ok (smem, p.ch) ∧ p.smem = if p.flags ≠ 0 then smem else 0 := by
  simp only [plan, bind_eq_ok, ite_error_eq_ok, pure_eq_ok] at h
  obtain ⟨⟨kps, s⟩, hs, mode, -, pf, -, -, ⟨smem, ch⟩, hlay, rfl⟩ := h
  exact ⟨hs, rfl, rfl, smem, hlay, rfl⟩

/-- The splits of a plan stay as they are, and so do the steps per split. -/
theorem plan_ranges {env : Env} {n m : ℤ} {k : ℕ} {splits : Option ℤ} {fused : Option Fused} {prequant : Bool}
    {pf : Option ℤ} {p : Plan} (h : plan env n k m splits fused prequant pf = .ok p) (hs : 0 < p.splits) (hk : 0 < k / 64) :
    ∃ kps s : ℕ, p.kps = kps ∧ p.splits = s ∧ splitRanges k s = (kps, s) := by
  obtain ⟨s₀, hs₀, -, hkps, hsp⟩ := planSplits_ok (plan_ok h).1 hs
  refine ⟨_, _, hkps, hsp, ?_⟩
  have hkps : 0 < cdiv (k / 64) s₀ := (cdiv_pos_iff hs₀).mpr hk
  have hsp : 0 < cdiv (k / 64) (cdiv (k / 64) s₀) := (cdiv_pos_iff hkps).mpr hk
  have hround : cdiv (k / 64) (cdiv (k / 64) (cdiv (k / 64) s₀)) = cdiv (k / 64) s₀ := cdiv_cdiv_cdiv hk hs₀
  simp only [splitRanges, hround]

/-- The layouts agree. -/
theorem fusedLayout_cast {m : ℕ} (hm : 0 < m) (kps splits flags : ℕ) :
    fusedLayout m kps splits flags =
      .ok (((NvGemm.fusedLayout m kps splits flags).1 : ℤ), ((NvGemm.fusedLayout m kps splits flags).2 : ℤ)) := by
  have hne : ¬(32 * (m : ℤ) = 0) := by omega
  have hstage : (STAGE_FLOATS : ℤ).fdiv (32 * m) = (STAGE_FLOATS / (32 * m) : ℕ) := fdiv_cast STAGE_FLOATS (32 * m)
  have hch : min (max ((STAGE_FLOATS / (32 * m) : ℕ) - 1 : ℤ) 1) splits =
      (min (max (STAGE_FLOATS / (32 * m) - 1) 1) splits : ℕ) := by omega
  simp only [fusedLayout, floorDiv, if_neg hne, NvGemm.fusedLayout, quantSmem]
  rw [bind_eq_ok]
  refine ⟨_, rfl, ?_⟩
  rw [pure_eq_ok, hstage, hch]
  have hlor : Int.lor (kps : ℤ) 1 = (kps ||| 1 : ℕ) := rfl
  have hsplits : (1 : ℤ) < splits ↔ 1 < splits := Nat.one_lt_cast
  simp only [hlor, hsplits, Nat.cast_add, Nat.cast_max, Nat.cast_ite, Nat.cast_mul, Nat.cast_ofNat, Nat.cast_zero,
    Nat.cast_one]

/-! ## Workspace -/

lemma splitsFor_congr {n k m m' : ℤ} (h : tilesFor m = tilesFor m') : splitsFor n k m = splitsFor n k m' := by
  simp only [splitsFor, h]

/-- The workspace holds the sums of every number of rows up to the largest. -/
theorem partialElems_covers {env env' : Env} {n m maxM : ℕ} {k e : ℤ} {fused : Option Fused} {prequant : Bool}
    {pf : Option ℤ} {p : Plan} (he : partialElems env n k maxM = .ok e)
    (hp : plan env' n k m none fused prequant pf = .ok p) (hm : 0 < m) (hmax : m ≤ maxM) : p.partials ≤ e := by
  simp only [partialElems, bind_eq_ok] at he
  obtain ⟨sizes, hsizes, he⟩ := he
  have hle : ∀ size ∈ sizes, size ≤ e := by
    cases hmx : sizes.max? with
    | none => rw [hmx] at he; cases he
    | some e' =>
      rw [hmx] at he
      obtain rfl := Except.ok.inj he
      exact (List.max?_eq_some_iff.mp hmx).2
  obtain ⟨t, ht⟩ : ∃ t, NvGemm.tilesFor m = t + 1 :=
    Nat.exists_eq_succ_of_ne_zero ((cdiv_pos_iff (by decide)).mpr hm).ne'
  have htop : 16 * t < m := (lt_cdiv_iff (by decide)).mp (Nat.lt_of_lt_of_eq (Nat.lt_succ_self t) ht.symm)
  have hbot : m ≤ 16 * (t + 1) := (cdiv_le_iff (by decide)).mp ht.le
  -- the top row of the tile of `m`
  obtain ⟨top, hdef⟩ : ∃ top : ℕ, top = min (16 * (t + 1)) maxM := ⟨_, rfl⟩
  have hsame : NvGemm.tilesFor top = t + 1 := by
    refine le_antisymm ((cdiv_le_iff (by decide)).mpr (by omega)) ?_
    exact (lt_cdiv_iff (by decide)).mpr (by omega)
  have hmem : (top : ℤ) ∈ (List.range (tilesFor maxM).toNat).map fun t : ℕ => min (16 * ((t : ℤ) + 1)) (maxM : ℤ) := by
    refine List.mem_map.mpr ⟨t, List.mem_range.mpr ?_, by omega⟩
    rw [tilesFor_cast, Int.toNat_natCast]
    exact (lt_cdiv_iff (by decide)).mpr (by omega)
  obtain ⟨size, hin, hsize⟩ := exists_of_mapM_mem hsizes hmem
  refine le_trans ?_ (hle size hin)
  obtain ⟨q, hq, hsize⟩ := bind_eq_ok.mp hsize
  obtain rfl := pure_eq_ok.mp hsize
  obtain ⟨hps, -, hpp, -⟩ := plan_ok hp
  obtain ⟨hqs, -, hqp, -⟩ := plan_ok hq
  have hreq : planSplits n k m none = planSplits n k top none := by
    have : splitsFor n k m = splitsFor n k top := by
      refine splitsFor_congr ?_
      rw [tilesFor_cast, tilesFor_cast, ht, hsame]
    simp only [planSplits, requested, this]
  rw [hreq, hqs] at hps
  have hsplits : p.splits = q.splits := (congrArg Prod.snd (Except.ok.inj hps)).symm
  rw [hpp, hqp, hsplits]
  split_ifs with hone
  · have hrow : (m : ℤ) ≤ top := by omega
    exact mul_le_mul_of_nonneg_right (mul_le_mul_of_nonneg_left hrow (by omega)) (Int.natCast_nonneg n)
  · exact le_rfl

end Py

end SuffixHybrid.NvGemm
