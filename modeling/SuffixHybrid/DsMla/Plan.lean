import Mathlib.Data.List.Range
import SuffixHybrid.Lib.Best
import SuffixHybrid.Lib.Grid
import SuffixHybrid.Lib.Word

/-!
# The wave plan of the ds-MLA attention

`plan` picks the split count with the least cost in waves and half tiles. The loop skips a count that gives
splits of the same length as a smaller count, which costs no more (`exists_canonical`), so the first
cheapest canonical count is the first cheapest of all (`waveSplits_spec`). `plan_optimal` adds what the host
op derives again from the count. The cost is a `usize` product, and nothing bounds the overhead that
`SUFFIX_NVFP4_DSMLA_WAVE_C2` sets (`wave_overhead_wraps`).
-/

namespace SuffixHybrid.DsMla
open Lib

/-- `DIM`. -/
def DIM : ℕ := 512

/-- `PE_DIM`. -/
def PE_DIM : ℕ := 64

/-- `TN`. -/
def TN : ℕ := 64

/-- `MAX_SPLITS`. -/
def MAX_SPLITS : ℕ := 256

/-- `DsMlaPlan`. -/
structure DsMlaPlan where
  hqt : ℕ
  cPerSplit : ℕ
  ns : ℕ
  rows : ℕ
  mergeRows : ℕ
deriving DecidableEq

/-- `split_rows`. -/
def splitRows (capacity ns : ℕ) : ℕ := usize (TN * cdiv (cdiv capacity TN) (max ns 1))

/-- `check_launch`; its products are `u128`, which none of them fills before the first is refused. -/
def checkLaunch (tokens hq capacity ns : ℕ) : Except String Unit :=
  let bad := [(tokens * hq, 2 ^ 31 - 1, "grid.x T*HQ"), (ns, 65535, "grid.y NS"),
    (tokens * hq * ns * DIM, 2 ^ 32 - 1, "o_part index T*HQ*NS*512"),
    (tokens * hq * (DIM + PE_DIM), 2 ^ 32 - 1, "q index T*HQ*576"),
    (tokens * capacity, 2 ^ 32 - 1, "topk index T*C")].find? fun (v, max, _) => v > max
  match bad with
  | some (v, max, what) =>
    .error s!"{what} = {v} exceeds {max} (T={tokens}, HQ={hq}, C={capacity}, NS={ns})"
  | none => .ok ()

/-- The loop skips a split count if a smaller one gives splits of the same length. -/
def Canonical (tiles ns : ℕ) : Prop := cdiv tiles (cdiv tiles ns) = ns

instance (tiles ns : ℕ) : Decidable (Canonical tiles ns) := inferInstanceAs (Decidable (_ = _))

/-- `wave_splits`: the counts that are examined, each with its cost. -/
def waveSplits (rows tiles numSms c2 : ℕ) : ℕ :=
  (cheapest
    (fun ns => usize (cdiv (usize (rows * ns)) numSms * usize (usize (2 * cdiv tiles ns) + c2)))
    id ((List.range' 1 (min tiles MAX_SPLITS)).filter (Canonical tiles)) (2 ^ 64 - 1, 1)).2

/-- `plan`, with the overhead `c2` that `wave_c2` reads. -/
def plan (tokens hq capacity numSms c2 : ℕ) : Except String DsMlaPlan :=
  if tokens = 0 ∨ hq = 0 then .error "tokens and hq must be positive"
  else if numSms = 0 then .error "num_sms must be positive"
  else if capacity = 0 then .error "capacity must be positive (top-k C)"
  else if capacity > 2 ^ 32 - 1 then .error "capacity exceeds u32"
  else
    let hqt := cdiv hq 8
    let rows := usize (tokens * hqt)
    let ns := waveSplits rows (cdiv capacity TN) numSms c2
    match checkLaunch tokens hq capacity ns with
    | .error text => .error text
    | .ok () => .ok ⟨hqt, splitRows capacity ns, ns, rows, usize (tokens * hq)⟩

/-! ## The search -/

/-- The cost of a split count. -/
def waveCost (rows tiles numSms c2 ns : ℕ) : ℕ := cdiv (rows * ns) numSms * (2 * cdiv tiles ns + c2)

/-- A split count gives splits of the same length as a canonical one that is no larger and costs no more. -/
lemma exists_canonical {rows tiles numSms c2 ns : ℕ} (hsms : 0 < numSms) (ht : 0 < tiles) (hns : 0 < ns) :
    ∃ n, 0 < n ∧ n ≤ ns ∧ Canonical tiles n ∧
      waveCost rows tiles numSms c2 n ≤ waveCost rows tiles numSms c2 ns := by
  have hk : 0 < cdiv tiles ns := (cdiv_pos_iff hns).mpr ht
  have hle : cdiv tiles (cdiv tiles ns) ≤ ns := cdiv_le_of_share hns hk le_rfl
  have hsame := cdiv_cdiv_cdiv ht hns
  refine ⟨cdiv tiles (cdiv tiles ns), (cdiv_pos_iff hk).mpr ht, hle, ?_, ?_⟩
  · rw [Canonical, hsame]
  · rw [waveCost, waveCost, hsame]
    exact Nat.mul_le_mul_right _ (cdiv_mono hsms (Nat.mul_le_mul_left rows hle))

/-- A cost that fits a `usize` is computed exactly. -/
lemma wrapped_cost {rows tiles numSms c2 ns : ℕ} (hsms : 0 < numSms) (hrows : 0 < rows) (hns : 0 < ns)
    (hprod : rows * ns < 2 ^ 64) (hcost : waveCost rows tiles numSms c2 ns < 2 ^ 64) :
    usize (cdiv (usize (rows * ns)) numSms * usize (usize (2 * cdiv tiles ns) + c2)) =
      waveCost rows tiles numSms c2 ns := by
  have hwaves : 0 < cdiv (rows * ns) numSms := (cdiv_pos_iff hsms).mpr (Nat.mul_pos hrows hns)
  have hsum : 2 * cdiv tiles ns + c2 < 2 ^ 64 := (Nat.le_mul_of_pos_left _ hwaves).trans_lt hcost
  rw [usize_of_lt hprod, usize_of_lt (by omega : 2 * cdiv tiles ns < 2 ^ 64), usize_of_lt hsum]
  exact usize_of_lt hcost

/-- The split counts that the loop examines. -/
lemma mem_examined {tiles n : ℕ} :
    n ∈ (List.range' 1 (min tiles MAX_SPLITS)).filter (Canonical tiles) ↔
      (0 < n ∧ n ≤ tiles ∧ n ≤ MAX_SPLITS) ∧ Canonical tiles n := by
  rw [List.mem_filter, List.mem_range'_1, decide_eq_true_eq]
  refine and_congr_left fun _ => ?_
  omega

/-- One split is canonical, and examined first. -/
lemma examined_eq {tiles : ℕ} (ht : 0 < tiles) :
    (List.range' 1 (min tiles MAX_SPLITS)).filter (Canonical tiles) =
      1 :: (List.range' 2 (min tiles MAX_SPLITS - 1)).filter (Canonical tiles) := by
  have hcan : Canonical tiles 1 := by
    have h1 : cdiv tiles 1 = tiles := by rw [cdiv, Nat.add_sub_cancel, Nat.div_one]
    rw [Canonical, h1]
    exact Nat.le_antisymm ((cdiv_le_iff ht).mpr (Nat.mul_one tiles).ge) ((cdiv_pos_iff ht).mpr ht)
  obtain ⟨k, hk⟩ := Nat.exists_eq_succ_of_ne_zero (n := min tiles MAX_SPLITS)
    (by rw [MAX_SPLITS]; omega)
  rw [hk, List.range'_succ, List.filter_cons_of_pos (by simpa using hcan)]
  rfl

/-- The search ends with a count that it examined, whatever wraps. -/
lemma waveSplits_mem (rows numSms c2 : ℕ) {tiles : ℕ} (ht : 0 < tiles) :
    waveSplits rows tiles numSms c2 ∈ (List.range' 1 (min tiles MAX_SPLITS)).filter (Canonical tiles) := by
  rw [waveSplits]
  generalize (fun ns => usize (cdiv (usize (rows * ns)) numSms * usize (usize (2 * cdiv tiles ns) + c2)))
    = cost
  generalize hl : (List.range' 1 (min tiles MAX_SPLITS)).filter (Canonical tiles) = l
  by_cases hlow : ∃ n ∈ l, cost n < 2 ^ 64 - 1
  · obtain ⟨n, hfirst, he⟩ := cheapest_spec id (2 ^ 64 - 1, 1) hlow
    rw [he]
    exact hfirst.mem
  · rw [cheapest_stays fun n hn => not_lt.mp fun hlt => hlow ⟨n, hn, hlt⟩, ← hl, examined_eq ht]
    exact List.mem_cons_self

/-- The search finds the first of the cheapest split counts, canonical or not. -/
theorem waveSplits_spec {rows tiles numSms c2 : ℕ} (hsms : 0 < numSms) (hrows : 0 < rows) (ht : 0 < tiles)
    (hprod : ∀ n ≤ MAX_SPLITS, rows * n < 2 ^ 64)
    (hcost : ∀ n, 0 < n → n ≤ tiles → n ≤ MAX_SPLITS → Canonical tiles n →
      waveCost rows tiles numSms c2 n < 2 ^ 64) :
    FirstLeast (waveCost rows tiles numSms c2)
        ((List.range' 1 (min tiles MAX_SPLITS)).filter (Canonical tiles))
        (waveSplits rows tiles numSms c2) := by
  generalize hl : (List.range' 1 (min tiles MAX_SPLITS)).filter (Canonical tiles) = l
  have hmem (n : ℕ) (hn : n ∈ l) : (0 < n ∧ n ≤ tiles ∧ n ≤ MAX_SPLITS) ∧ Canonical tiles n :=
    mem_examined.mp (hl ▸ hn)
  have hexact : waveSplits rows tiles numSms c2 =
      (cheapest (waveCost rows tiles numSms c2) id l (2 ^ 64 - 1, 1)).2 := by
    rw [waveSplits, hl]
    refine congrArg Prod.snd (cheapest_congr (fun n hn => ?_) (fun _ _ => rfl) _)
    obtain ⟨⟨hpos, hle, hmax⟩, hcan⟩ := hmem n hn
    exact wrapped_cost hsms hrows hpos (hprod n hmax) (hcost n hpos hle hmax hcan)
  rw [hexact]
  by_cases hlow : ∃ n ∈ l, waveCost rows tiles numSms c2 n < 2 ^ 64 - 1
  · obtain ⟨n, hfirst, he⟩ := cheapest_spec id (2 ^ 64 - 1, 1) hlow
    rw [he]
    exact hfirst
  · -- every cost is the largest word, so the first count is as good as any
    have hge : ∀ n ∈ l, 2 ^ 64 - 1 ≤ waveCost rows tiles numSms c2 n :=
      fun n hn => not_lt.mp fun hlt => hlow ⟨n, hn, hlt⟩
    rw [cheapest_stays hge]
    have hcan : Canonical tiles 1 := by
      have h1 : 1 ∈ l := by
        rw [← hl, examined_eq ht]
        exact List.mem_cons_self
      exact (hmem 1 h1).2
    rw [examined_eq ht] at hl
    subst hl
    refine ⟨[], _, rfl, by simp, fun n hn => ?_⟩
    have h1 := hcost 1 Nat.one_pos ht (by decide) hcan
    have := hge n (List.mem_cons_of_mem _ hn)
    dsimp only
    omega

/-! ## The plan -/

/-- What an accepted plan says of its arguments. -/
structure Accepted (tokens hq capacity numSms c2 : ℕ) (p : DsMlaPlan) : Prop where
  positive : 0 < tokens ∧ 0 < hq ∧ 0 < numSms ∧ 0 < capacity
  capacity_lt : capacity < 2 ^ 32
  grid : tokens * hq ≤ 2 ^ 31 - 1 ∧ p.ns ≤ 65535
  oPart : tokens * hq * p.ns * DIM ≤ 2 ^ 32 - 1
  q : tokens * hq * (DIM + PE_DIM) ≤ 2 ^ 32 - 1
  topk : tokens * capacity ≤ 2 ^ 32 - 1
  fields : p.hqt = cdiv hq 8 ∧ p.rows = tokens * p.hqt ∧ p.mergeRows = tokens * hq ∧
    p.ns = waveSplits p.rows (cdiv capacity TN) numSms c2 ∧ p.cPerSplit = splitRows capacity p.ns

lemma checkLaunch_ok_iff {tokens hq capacity ns : ℕ} : checkLaunch tokens hq capacity ns = .ok () ↔
    tokens * hq ≤ 2 ^ 31 - 1 ∧ ns ≤ 65535 ∧ tokens * hq * ns * DIM ≤ 2 ^ 32 - 1 ∧
      tokens * hq * (DIM + PE_DIM) ≤ 2 ^ 32 - 1 ∧ tokens * capacity ≤ 2 ^ 32 - 1 := by
  simp only [checkLaunch]
  split
  case h_1 v max what hsome =>
    have hbad := List.find?_some hsome
    have hmem := List.mem_of_find?_eq_some hsome
    simp only [List.mem_cons, List.not_mem_nil, or_false, Prod.mk.injEq, decide_eq_true_eq] at hmem hbad
    refine iff_of_false (by simp) ?_
    omega
  case h_2 hnone =>
    simp only [List.find?_eq_none, List.mem_cons, List.not_mem_nil, or_false, decide_eq_true_eq,
      forall_eq_or_imp, forall_eq, not_lt, gt_iff_lt] at hnone
    exact iff_of_true rfl hnone

/-- The q-head tiles are no more than the heads. -/
lemma hqt_le (tokens hq : ℕ) : tokens * cdiv hq 8 ≤ tokens * hq :=
  Nat.mul_le_mul_left tokens (cdiv_le_self hq (by decide))

lemma plan_inv {tokens hq capacity numSms c2 : ℕ} {p : DsMlaPlan}
    (h : plan tokens hq capacity numSms c2 = .ok p) : Accepted tokens hq capacity numSms c2 p := by
  unfold plan at h
  split at h
  · cases h
  rename_i hpos
  split at h
  · cases h
  rename_i hsms
  split at h
  · cases h
  rename_i hcap
  split at h
  · cases h
  rename_i hword
  dsimp only at h
  split at h
  · cases h
  rename_i hcheck
  cases h
  obtain ⟨hgrid, hns, ho, hq', htopk⟩ := checkLaunch_ok_iff.mp hcheck
  have hrows : usize (tokens * cdiv hq 8) = tokens * cdiv hq 8 := by
    have hle := hqt_le tokens hq
    exact usize_of_lt (by omega)
  rw [hrows] at hns ho ⊢
  refine ⟨by omega, by omega, ⟨hgrid, hns⟩, ho, hq', htopk, rfl, rfl, ?_, rfl, rfl⟩
  exact usize_of_lt (by omega)

/-- The split count and the split size of a plan determine each other and cover the capacity. -/
structure Consistent (capacity : ℕ) (p : DsMlaPlan) : Prop where
  mem : 1 ≤ p.ns ∧ p.ns ≤ min (cdiv capacity TN) MAX_SPLITS
  covers : (p.ns - 1) * p.cPerSplit < capacity ∧ capacity ≤ p.ns * p.cPerSplit
  rederived : cdiv capacity p.cPerSplit = p.ns ∧ splitRows capacity p.ns = p.cPerSplit

/-- The plan has the cheapest split count, the smallest on a tie. -/
structure Optimal (capacity numSms c2 : ℕ) (p : DsMlaPlan) : Prop where
  least : ∀ n, 1 ≤ n → n ≤ min (cdiv capacity TN) MAX_SPLITS →
    waveCost p.rows (cdiv capacity TN) numSms c2 p.ns ≤ waveCost p.rows (cdiv capacity TN) numSms c2 n
  smallest : ∀ n, 1 ≤ n → n < p.ns →
    waveCost p.rows (cdiv capacity TN) numSms c2 p.ns < waveCost p.rows (cdiv capacity TN) numSms c2 n

/-- The products of `plan` other than the costs. -/
structure ProductsFit (tokens hq capacity : ℕ) (p : DsMlaPlan) : Prop where
  rows : tokens * cdiv hq 8 < 2 ^ 64
  mergeRows : tokens * hq < 2 ^ 64
  split : TN * cdiv (cdiv capacity TN) (max p.ns 1) < 2 ^ 64
  ctas : ∀ n ≤ MAX_SPLITS, p.rows * n < 2 ^ 64
  twice : ∀ n, 1 ≤ n → 2 * cdiv (cdiv capacity TN) n < 2 ^ 64

lemma Accepted.productsFit {tokens hq capacity numSms c2 : ℕ} {p : DsMlaPlan}
    (h : Accepted tokens hq capacity numSms c2 p) : ProductsFit tokens hq capacity p := by
  have hgrid := h.grid.1
  have hcap := h.capacity_lt
  have hle := hqt_le tokens hq
  have htiles : cdiv capacity TN ≤ capacity := cdiv_le_self capacity (by decide)
  have hsplit : cdiv (cdiv capacity TN) (max p.ns 1) ≤ cdiv capacity TN :=
    cdiv_le_self _ (Nat.lt_of_lt_of_le Nat.one_pos (le_max_right _ _))
  refine ⟨by omega, by omega, ?_, fun n hn => ?_, fun n hn => ?_⟩
  · rw [TN] at *
    omega
  · have hrows : p.rows ≤ 2 ^ 31 := by
      rw [h.fields.2.1, h.fields.1]
      omega
    have hprod : p.rows * n ≤ 2 ^ 31 * 256 := Nat.mul_le_mul hrows hn
    omega
  · have hn' : cdiv (cdiv capacity TN) n ≤ cdiv capacity TN := cdiv_le_self _ hn
    omega

lemma Accepted.consistent {tokens hq capacity numSms c2 : ℕ} {p : DsMlaPlan}
    (h : Accepted tokens hq capacity numSms c2 p) : Consistent capacity p := by
  obtain ⟨-, -, -, hns, hcps⟩ := h.fields
  have ht : 0 < cdiv capacity TN := (cdiv_pos_iff (by decide)).mpr h.positive.2.2.2
  have hmem := waveSplits_mem p.rows numSms c2 ht
  rw [← hns] at hmem
  obtain ⟨⟨hpos, hletiles, hlemax⟩, hcan⟩ := mem_examined.mp hmem
  have hk : 0 < cdiv (cdiv capacity TN) p.ns := (cdiv_pos_iff hpos).mpr ht
  have hsplit : p.cPerSplit = TN * cdiv (cdiv capacity TN) p.ns := by
    rw [hcps, splitRows, usize_of_lt h.productsFit.split, max_eq_left hpos]
  have hcps0 : 0 < p.cPerSplit := hsplit ▸ Nat.mul_pos (by decide) hk
  have hcount : cdiv capacity p.cPerSplit = p.ns := by
    rw [hsplit, ← cdiv_cdiv capacity (by decide) hk]
    exact hcan
  refine ⟨⟨hpos, le_min hletiles hlemax⟩, ?_, hcount, hcps.symm⟩
  rw [Nat.mul_comm, ← lt_cdiv_iff hcps0, Nat.mul_comm p.ns, ← cdiv_le_iff hcps0, hcount]
  exact ⟨Nat.sub_lt hpos Nat.one_pos, le_rfl⟩

lemma Accepted.optimal {tokens hq capacity numSms c2 : ℕ} {p : DsMlaPlan}
    (h : Accepted tokens hq capacity numSms c2 p)
    (hcost : ∀ n, 1 ≤ n → n ≤ min (cdiv capacity TN) MAX_SPLITS → Canonical (cdiv capacity TN) n →
      waveCost p.rows (cdiv capacity TN) numSms c2 n < 2 ^ 64) : Optimal capacity numSms c2 p := by
  obtain ⟨htok, hhq, hsms, hcap⟩ := h.positive
  obtain ⟨hhqt, hrows, -, hns, -⟩ := h.fields
  have ht : 0 < cdiv capacity TN := (cdiv_pos_iff (by decide)).mpr hcap
  have hrows0 : 0 < p.rows := by
    rw [hrows, hhqt]
    exact Nat.mul_pos htok ((cdiv_pos_iff (by decide)).mpr hhq)
  have hfirst := waveSplits_spec hsms hrows0 ht h.productsFit.ctas
    fun n h1 h2 h3 => hcost n h1 (le_min h2 h3)
  rw [← hns] at hfirst
  obtain ⟨⟨-, hletiles, hlemax⟩, -⟩ := mem_examined.mp hfirst.mem
  have hsorted : ((List.range' 1 (min (cdiv capacity TN) MAX_SPLITS)).filter
      (Canonical (cdiv capacity TN))).Pairwise (· < ·) :=
    List.Pairwise.filter _ List.pairwise_lt_range'
  constructor
  case least =>
    intro n hn hle
    obtain ⟨n', hn', hle', hcan', hcost'⟩ := exists_canonical hsms ht hn
    refine (hfirst.le n' (mem_examined.mpr ⟨⟨hn', ?_, ?_⟩, hcan'⟩)).trans hcost'
    · exact hle'.trans (hle.trans (min_le_left _ _))
    · exact hle'.trans (hle.trans (min_le_right _ _))
  case smallest =>
    intro n hn hlt
    obtain ⟨n', hn', hle', hcan', hcost'⟩ := exists_canonical hsms ht hn
    have hlt' : n' < p.ns := hle'.trans_lt hlt
    refine (hfirst.lt_of_lt hsorted n' (mem_examined.mpr ⟨⟨hn', ?_, ?_⟩, hcan'⟩) hlt').trans_le hcost'
    · exact hlt'.le.trans hletiles
    · exact hlt'.le.trans hlemax

/-- The wave plan is consistent and its products other than the costs fit a `usize`; it is optimal if the costs
that are examined fit too. -/
theorem plan_optimal {tokens hq capacity numSms c2 : ℕ} {p : DsMlaPlan}
    (h : plan tokens hq capacity numSms c2 = .ok p) :
    Consistent capacity p ∧ ProductsFit tokens hq capacity p ∧
      ((∀ n, 1 ≤ n → n ≤ min (cdiv capacity TN) MAX_SPLITS → Canonical (cdiv capacity TN) n →
        waveCost p.rows (cdiv capacity TN) numSms c2 n < 2 ^ 64) → Optimal capacity numSms c2 p) :=
  ⟨(plan_inv h).consistent, (plan_inv h).productsFit, (plan_inv h).optimal⟩

/-- Six tokens of eight heads on 188 SMs: 16 splits of 128 rows. -/
theorem plan_optimal_verify : Optimal 2048 188 4 ⟨1, 128, 16, 6, 48⟩ := by
  have hplan : plan 6 8 2048 188 4 = .ok ⟨1, 128, 16, 6, 48⟩ := by decide
  refine (plan_optimal hplan).2.2 fun n hn hle _ => ?_
  have htiles : cdiv 2048 TN = 32 := by decide
  rw [htiles] at hle ⊢
  have hn32 : n ≤ 32 := hle.trans (min_le_left _ _)
  have hwaves : cdiv (6 * n) 188 ≤ cdiv (6 * 32) 188 := cdiv_mono (by decide) (by omega)
  have hhalf : 2 * cdiv 32 n + 4 ≤ 2 * 32 + 4 := by
    have hle32 := cdiv_le_self 32 hn
    omega
  exact (Nat.mul_le_mul hwaves hhalf).trans_lt (by decide)

/-- With an overhead near the largest word the cost of one split wraps to zero, and two splits are cheaper. -/
theorem wave_overhead_wraps :
    plan 1 8 128 188 (2 ^ 64 - 4) = .ok ⟨1, 128, 1, 1, 8⟩ ∧
      ¬ Optimal 128 188 (2 ^ 64 - 4) ⟨1, 128, 1, 1, 8⟩ := by
  refine ⟨by decide, fun h => ?_⟩
  exact absurd (h.least 2 (by decide) (by decide)) (by decide)

end SuffixHybrid.DsMla
