import Mathlib.Tactic.IntervalCases
import SuffixHybrid.Attn.Rows
import SuffixHybrid.Lib.Float

/-!
# Launch plans of the attention kernel

`planRows` is `plan_rows`. Its loop ends (`planRows_ends`), and a plan that it returns can be launched:
`planRows_inv` reads off what the checks leave, and `planRows_executable` derives the bounds on the tile,
the shared memory, the register slots and the rows. `round16` of a group within 16 of the largest `usize`
wraps to zero and passes its check, and the launch rows wrap with the batch, which nothing bounds
(`planRows_wraps`).
-/

namespace SuffixHybrid.Attn
open Lib

/-- `MAX_ROWS`. -/
def MAX_ROWS : ℕ := 48

/-- `MAX_SPLITS`. -/
def MAX_SPLITS : ℕ := 256

/-- `MAX_Q_LEN`. -/
def MAX_Q_LEN : ℕ := 16

/-- `HEAD_DIMS`. -/
def HEAD_DIMS : List ℕ := [128, 256, 512]

/-- `SMEM_LIMIT`. -/
def SMEM_LIMIT : ℕ := 99 * 1024

/-- `SMEM_PER_SM`. -/
def SMEM_PER_SM : ℕ := 100 * 1024

/-- `S_SLOTS`. -/
def S_SLOTS : List ℕ := [0, 2, 3, 3]

/-- `AttnPlan`. -/
structure AttnPlan where
  d : ℕ
  g : ℕ
  qt : ℕ
  nqt : ℕ
  m : ℕ
  tn : ℕ
  ns : ℕ
  wv : ℕ
  cps : ℕ
  rows : ℕ
deriving DecidableEq

/-- `round16`. -/
def round16 (x : ℕ) : ℕ := usize (cdiv x 16 * 16)

/-- `partial_smem_bytes`. -/
def partialSmemBytes (m d tn : ℕ) : ℕ :=
  m * (d + 8) * 2 + 2 * tn * (d / 2 + 16 + d / 16) * 2 + m * (tn + 8) * 2 + 2 * (tn / 8) * m * 4 + 3 * m * 4

/-- `merge_smem_bytes`. -/
def mergeSmemBytes (ns m : ℕ) : ℕ := (ns * m + m) * 4 + m * 8 * 8 * 4

/-- The loop that makes the q tiles shorter until one fits the rows; `none` if the fuel is used up. -/
def shrinkTile (maxRows g qLen : ℕ) : ℕ → ℕ → ℕ → Option ℕ
  | 0, _, _ => none
  | fuel + 1, nqt, qt =>
    if maxRows < round16 (usize (qt * g)) then
      shrinkTile maxRows g qLen fuel (usize (nqt + 1)) (cdiv qLen (usize (nqt + 1)))
    else some qt

/-- `pick_tn`: the largest KV tile that divides the page, has the S slots and fits the shared memory. -/
def pickTn (pageSize m d wv cps : ℕ) : Option ℕ :=
  [64, 32, 16].find? fun t =>
    pageSize % t = 0 ∧ cdiv (m / 16) (8 / (t / 8)) ≤ S_SLOTS.getD wv 0 ∧
      partialSmemBytes m d t ≤ min SMEM_LIMIT (SMEM_PER_SM / cps - 1024)

/-- The KV tile and the CTAs per SM: two for the light register variant if they fit, else one. -/
def pickCps (pageSize m d wv : ℕ) : Option (ℕ × ℕ) :=
  match if wv = 1 then pickTn pageSize m d wv 2 else none with
  | some t => some (t, 2)
  | none => (pickTn pageSize m d wv 1).map fun t => (t, 1)

section
variable [F64]

/-- The cost of a split count. -/
def splitCost (rows slots ns : ℕ) : ℚ :=
  F64.div (F64.ofNat (cdiv (usize (rows * ns)) slots)) (F64.ofNat ns)

/-- `choose_splits`; the fold over the costs starts at infinity. -/
def chooseSplits (rows slots : ℕ) : ℕ :=
  let best := ((List.range' 2 (MAX_SPLITS - 1)).map (splitCost rows slots)).foldl min (splitCost rows slots 1)
  ((List.range' 1 MAX_SPLITS).find? fun ns =>
    splitCost rows slots ns ≤ F64.mul best (F64.round (103 / 100))).getD 1

/-- The plan for a q tile; a division by zero slots panics. -/
def planTile (batch qLen hkv d pageSize numSms g qt : ℕ) : Except String AttnPlan :=
  let nqt := cdiv qLen qt
  let m := round16 (usize (qt * g))
  let wv := cdiv (m / 16) (8 / (d / 64))
  if wv > 3 then
    .error s!"M={m} D={d} needs {wv} O slots per warp (max 3)"
  else match pickCps pageSize m d wv with
    | none => .error s!"page_size {pageSize} has no KV tile in \x7b64, 32, 16\x7d fitting smem (M={m}, D={d})"
    | some (tn, cps) =>
      let rows := usize (usize (batch * hkv) * nqt)
      let slots := usize (numSms * cps)
      if slots = 0 then .error "attempt to divide by zero"
      else .ok ⟨d, g, qt, nqt, m, tn, chooseSplits rows slots, wv, cps, rows⟩

/-- `plan_rows`; `none` if the fuel of its loop is used up. -/
def planRows (fuel batch qLen hq hkv d pageSize numSms maxRows : ℕ) : Option (Except String AttnPlan) :=
  if ¬ (16 ≤ maxRows ∧ maxRows ≤ MAX_ROWS) ∨ maxRows % 16 ≠ 0 then
    some (.error s!"max_rows {maxRows} not in 16..={MAX_ROWS} step 16")
  else if d ∉ HEAD_DIMS then
    some (.error s!"head_dim {d} unsupported (need one of {HEAD_DIMS})")
  else if hkv = 0 ∨ hq = 0 ∨ hq % hkv ≠ 0 then
    some (.error s!"num_q_heads {hq} must be a positive multiple of num_kv_heads {hkv}")
  else if qLen = 0 ∨ qLen > MAX_Q_LEN then
    some (.error s!"q_len {qLen} outside 1..={MAX_Q_LEN}")
  else if batch = 0 ∨ numSms = 0 then
    some (.error "batch and num_sms must be positive")
  else
    let g := hq / hkv
    if round16 g > maxRows then
      some (.error s!"GQA group {g} exceeds {maxRows} rows per CTA")
    else
      let nqt := cdiv (usize (qLen * g)) maxRows
      (shrinkTile maxRows g qLen fuel nqt (cdiv qLen nqt)).map fun qt =>
        planTile batch qLen hkv d pageSize numSms g qt

end

/-! ## The loop -/

/-- With as many q tiles as tokens a tile has one token, or none. -/
lemma cdiv_le_one {qLen nqt : ℕ} (h : qLen ≤ nqt) : cdiv qLen nqt ≤ 1 := by
  obtain rfl | hpos := Nat.eq_zero_or_pos nqt
  · rw [cdiv, Nat.div_zero]
    exact Nat.zero_le 1
  · rw [cdiv_le_iff hpos, Nat.mul_one]
    exact h

lemma cdiv_pos_le {qLen nqt : ℕ} (hq : 0 < qLen) (hn : 0 < nqt) : 0 < cdiv qLen nqt ∧ cdiv qLen nqt ≤ qLen := by
  refine ⟨(cdiv_pos_iff hn).mpr hq, ?_⟩
  rw [cdiv_le_iff hn]
  exact Nat.le_mul_of_pos_left qLen hn

/-- Rounding up to 16 does not see the wrap of a `usize`. -/
lemma round16_usize (n : ℕ) : round16 (usize n) = round16 n := by
  simp only [round16, usize, cdiv]
  omega

lemma round16_of_le {n : ℕ} (h : n ≤ 2 ^ 64 - 16) : round16 n = cdiv n 16 * 16 := by
  rw [round16, usize, cdiv]
  omega

lemma le_round16 {n : ℕ} (h : n ≤ 2 ^ 64 - 16) : n ≤ round16 n := by
  rw [round16_of_le h, Nat.mul_comm]
  exact le_mul_cdiv (by decide)

/-- The loop goes on only while a tile has two tokens. -/
lemma lt_of_shrinks {maxRows g qLen nqt : ℕ} (hg : round16 g ≤ maxRows)
    (h : maxRows < round16 (usize (cdiv qLen nqt * g))) : nqt < qLen := by
  by_contra hle
  have hone := cdiv_le_one (Nat.le_of_not_lt hle)
  obtain h0 | h1 : cdiv qLen nqt = 0 ∨ cdiv qLen nqt = 1 := by omega
  · rw [h0, Nat.zero_mul] at h
    exact absurd h (Nat.not_lt_zero _)
  · rw [h1, Nat.one_mul, round16_usize] at h
    omega

lemma shrinkTile_ends {maxRows g qLen fuel : ℕ} (nqt : ℕ) (hg : round16 g ≤ maxRows) (hq : qLen ≤ MAX_Q_LEN)
    (hfuel : qLen < fuel + nqt) (hpos : 0 < fuel) :
    shrinkTile maxRows g qLen fuel nqt (cdiv qLen nqt) ≠ none := by
  induction fuel generalizing nqt with
  | zero => exact absurd hpos (Nat.lt_irrefl 0)
  | succ fuel ih =>
    rw [shrinkTile]
    split
    case isTrue h =>
      have hlt := lt_of_shrinks hg h
      have hnext : usize (nqt + 1) = nqt + 1 := Nat.mod_eq_of_lt (by rw [MAX_Q_LEN] at hq; omega)
      rw [hnext]
      exact ih (nqt + 1) (by omega) (by omega)
    case isFalse => simp

/-- The loop ends with a tile that fits the rows. -/
lemma shrinkTile_some {maxRows g qLen fuel nqt qt : ℕ} (hg : round16 g ≤ maxRows) (hq : qLen ≤ MAX_Q_LEN)
    (hn : 0 < nqt) (h : shrinkTile maxRows g qLen fuel nqt (cdiv qLen nqt) = some qt) :
    (∃ n, 0 < n ∧ qt = cdiv qLen n) ∧ round16 (usize (qt * g)) ≤ maxRows := by
  induction fuel generalizing nqt with
  | zero => cases h
  | succ fuel ih =>
    rw [shrinkTile] at h
    split at h
    case isTrue hlt =>
      have hnext : usize (nqt + 1) = nqt + 1 :=
        Nat.mod_eq_of_lt (by have := lt_of_shrinks hg hlt; rw [MAX_Q_LEN] at hq; omega)
      rw [hnext] at h
      exact ih (Nat.succ_pos nqt) h
    case isFalse hle =>
      cases h
      exact ⟨⟨nqt, hn, rfl⟩, Nat.le_of_not_lt hle⟩

/-- The KV tile that is picked. -/
lemma pickTn_some {pageSize m d wv cps t : ℕ} (h : pickTn pageSize m d wv cps = some t) :
    t ∈ [64, 32, 16] ∧ t ∣ pageSize ∧ cdiv (m / 16) (8 / (t / 8)) ≤ S_SLOTS.getD wv 0 ∧
      partialSmemBytes m d t ≤ min SMEM_LIMIT (SMEM_PER_SM / cps - 1024) := by
  have hp := List.find?_some h
  rw [decide_eq_true_eq] at hp
  exact ⟨List.mem_of_find?_eq_some h, Nat.dvd_of_mod_eq_zero hp.1, hp.2⟩

lemma pickCps_some {pageSize m d wv tn cps : ℕ} (h : pickCps pageSize m d wv = some (tn, cps)) :
    pickTn pageSize m d wv cps = some tn ∧ (cps = 1 ∨ cps = 2 ∧ wv = 1) := by
  rw [pickCps] at h
  split at h
  case h_1 t ht =>
    cases h
    split at ht
    · exact ⟨ht, .inr ⟨rfl, ‹_›⟩⟩
    · cases ht
  case h_2 =>
    obtain ⟨t, ht, he⟩ := Option.map_eq_some_iff.mp h
    cases he
    exact ⟨ht, .inl rfl⟩

/-! ## The registers -/

/-- `MTS`: the S row tiles per warp of a register variant. -/
def MTS (wv : ℕ) : ℕ := if wv = 1 then 2 else 3

/-- `MTW`: the O row tiles per warp of a register variant. -/
def MTW (wv : ℕ) : ℕ := if wv = 1 then 1 else if wv = 2 then 2 else 3

/-- Eight warps in groups of `n` reach every row tile of every column with the slots of a warp. -/
def Reaches (n mtiles slots : ℕ) : Prop :=
  ∀ x < n, ∀ mt < mtiles, ∃ w < 8, ∃ slot < slots, w % n = x ∧ w / n + slot * (8 / n) = mt

lemma reaches_of_cdiv {n mtiles slots : ℕ} (hn : n ∣ 8) (h : cdiv mtiles (8 / n) ≤ slots) :
    Reaches n mtiles slots := by
  intro x hx mt hmt
  obtain ⟨k, hk⟩ := hn
  have hn0 : 0 < n := Nat.zero_lt_of_lt hx
  have hk0 : 0 < k := Nat.pos_of_ne_zero (by rintro rfl; omega)
  have hdiv : 8 / n = k := by rw [hk, Nat.mul_div_cancel_left _ hn0]
  rw [hdiv] at h ⊢
  have hmod : mt % k < k := Nat.mod_lt mt hk0
  refine ⟨mt % k * n + x, ?_, mt / k, ?_, Nat.mul_add_mod_of_lt hx, ?_⟩
  · rw [hk, Nat.mul_comm n]
    exact place_lt hmod hx
  · rw [Nat.div_lt_iff_lt_mul hk0, Nat.mul_comm]
    exact hmt.trans_le ((cdiv_le_iff hk0).mp h)
  · rw [Nat.mul_comm _ n, Nat.mul_add_div hn0, Nat.div_eq_of_lt hx, Nat.add_zero, Nat.mul_comm _ k,
      Nat.mod_add_div]

/-! ## The plan -/

section
variable [F64]

/-- The loop of `plan_rows` ends. -/
theorem planRows_ends {fuel batch qLen hq hkv d pageSize numSms maxRows : ℕ} (hfuel : qLen < fuel) :
    planRows fuel batch qLen hq hkv d pageSize numSms maxRows ≠ none := by
  unfold planRows
  split_ifs with h1 h2 h3 h4 h5
  case neg =>
    dsimp only
    split_ifs with h6
    · simp
    · have hlen : qLen ≤ MAX_Q_LEN := by omega
      have hends := shrinkTile_ends (cdiv (usize (qLen * (hq / hkv))) maxRows)
        (Nat.le_of_not_lt h6) hlen (Nat.lt_add_right _ hfuel) (Nat.zero_lt_of_lt hfuel)
      simpa using hends
  all_goals simp

/-- What the checks of `plan_rows` leave of its arguments and the tile that its loop finds. -/
structure Accepted (batch qLen hq hkv d pageSize numSms maxRows qt : ℕ) (p : AttnPlan) : Prop where
  maxRows_mem : 16 ≤ maxRows ∧ maxRows ≤ MAX_ROWS ∧ maxRows % 16 = 0
  dim : d ∈ HEAD_DIMS
  heads : 0 < hkv ∧ 0 < hq ∧ hq % hkv = 0
  tokens : 0 < qLen ∧ qLen ≤ MAX_Q_LEN
  group : 0 < hq / hkv ∧ hq / hkv ≤ maxRows
  tile : 0 < qt ∧ qt ≤ qLen ∧ round16 (qt * (hq / hkv)) ≤ maxRows
  plan : planTile batch qLen hkv d pageSize numSms (hq / hkv) qt = .ok p

lemma planRows_inv {fuel batch qLen hq hkv d pageSize numSms maxRows : ℕ} {p : AttnPlan}
    (h : planRows fuel batch qLen hq hkv d pageSize numSms maxRows = some (.ok p))
    (hwide : hq / hkv ≤ 2 ^ 64 - 16) :
    ∃ qt, Accepted batch qLen hq hkv d pageSize numSms maxRows qt p := by
  unfold planRows at h
  split at h
  · cases h
  rename_i hmax
  split at h
  · cases h
  rename_i hdim
  split at h
  · cases h
  rename_i hheads
  split at h
  · cases h
  rename_i hqlen
  split at h
  · cases h
  dsimp only at h
  split at h
  · cases h
  rename_i hgroup
  have hmax' : 16 ≤ maxRows ∧ maxRows ≤ MAX_ROWS ∧ maxRows % 16 = 0 := by omega
  have htok : 0 < qLen ∧ qLen ≤ MAX_Q_LEN := by omega
  have hdvd : 0 < hkv ∧ 0 < hq ∧ hq % hkv = 0 := by omega
  have hg : hq / hkv ≤ maxRows := (le_round16 hwide).trans (Nat.le_of_not_lt hgroup)
  have hg0 : 0 < hq / hkv :=
    Nat.div_pos (Nat.le_of_dvd hdvd.2.1 (Nat.dvd_of_mod_eq_zero hdvd.2.2)) hdvd.1
  have hprod : 0 < usize (qLen * (hq / hkv)) := by
    have hle : qLen * (hq / hkv) ≤ 16 * 48 := Nat.mul_le_mul htok.2 (hg.trans hmax'.2.1)
    rw [usize, Nat.mod_eq_of_lt (by omega)]
    exact Nat.mul_pos htok.1 hg0
  have hn : 0 < cdiv (usize (qLen * (hq / hkv))) maxRows := (cdiv_pos_iff (by omega)).mpr hprod
  obtain ⟨qt, hqt, hp⟩ := Option.map_eq_some_iff.mp h
  obtain ⟨⟨n, hn', rfl⟩, hfit⟩ := shrinkTile_some (Nat.le_of_not_lt hgroup) htok.2 hn hqt
  obtain ⟨hpos, hle⟩ := cdiv_pos_le htok.1 hn'
  rw [round16_usize] at hfit
  exact ⟨cdiv qLen n, hmax', not_not.mp hdim, hdvd, htok, ⟨hg0, hg⟩, ⟨hpos, hle, hfit⟩, hp⟩

lemma chooseSplits_le (rows slots : ℕ) : chooseSplits rows slots ≤ MAX_SPLITS := by
  rw [chooseSplits]
  cases hfind : (List.range' 1 MAX_SPLITS).find? _ with
  | none => decide
  | some ns =>
    have hmem := List.mem_range'_1.mp (List.mem_of_find?_eq_some hfind)
    rw [Option.getD_some]
    omega

/-- What `plan_rows` computes from the q tile. -/
structure Tiled (batch qLen hkv d pageSize numSms g qt : ℕ) (p : AttnPlan) : Prop where
  fields : p.d = d ∧ p.g = g ∧ p.qt = qt ∧ p.nqt = cdiv qLen qt ∧ p.m = round16 (usize (qt * g)) ∧
    p.wv = cdiv (p.m / 16) (8 / (d / 64)) ∧ p.rows = usize (usize (batch * hkv) * p.nqt)
  slots : p.wv ≤ 3
  page : pickTn pageSize p.m d p.wv p.cps = some p.tn
  ctas : p.cps = 1 ∨ p.cps = 2 ∧ p.wv = 1
  splits : p.ns ≤ MAX_SPLITS

lemma planTile_inv {batch qLen hkv d pageSize numSms g qt : ℕ} {p : AttnPlan}
    (h : planTile batch qLen hkv d pageSize numSms g qt = .ok p) :
    Tiled batch qLen hkv d pageSize numSms g qt p := by
  simp only [planTile] at h
  split at h
  · cases h
  rename_i hwv
  split at h
  · cases h
  rename_i tn cps hpick
  split at h
  · cases h
  cases h
  obtain ⟨htn, hcps⟩ := pickCps_some hpick
  exact ⟨⟨rfl, rfl, rfl, rfl, rfl, rfl, rfl⟩, Nat.le_of_not_lt hwv, htn, hcps, chooseSplits_le _ _⟩

/-! ## The launch -/

/-- A plan can be launched. -/
structure Executable (qLen d pageSize maxRows : ℕ) (p : AttnPlan) : Prop where
  tile : 16 ∣ p.m ∧ p.qt * p.g ≤ p.m ∧ p.m ≤ maxRows
  tokens : p.qt * (p.nqt - 1) < qLen ∧ qLen ≤ p.qt * p.nqt
  page : p.tn ∣ pageSize
  smem : p.cps * (partialSmemBytes p.m d p.tn + 1024) ≤ SMEM_PER_SM ∧
    partialSmemBytes p.m d p.tn ≤ SMEM_LIMIT
  merge : mergeSmemBytes p.ns p.m ≤ SMEM_LIMIT
  sSlots : Reaches (p.tn / 8) (p.m / 16) (MTS p.wv)
  oSlots : Reaches (d / 64) (p.m / 16) (MTW p.wv)
  light : p.cps = 2 → p.wv = 1

lemma executable_of_accepted {batch qLen hq hkv d pageSize numSms maxRows qt : ℕ} {p : AttnPlan}
    (ha : Accepted batch qLen hq hkv d pageSize numSms maxRows qt p) :
    Executable qLen d pageSize maxRows p := by
  obtain ⟨⟨hd, hg, hqt, hnqt, hm, hwv, hrows⟩, hwv3, hpage, hctas, hns⟩ := planTile_inv ha.plan
  obtain ⟨hmax16, hmax48, -⟩ := ha.maxRows_mem
  obtain ⟨hqt0, hqtle, hfit⟩ := ha.tile
  have hq16 := ha.tokens.2
  rw [MAX_ROWS] at hmax48
  rw [MAX_Q_LEN] at hq16
  have hprod : qt * (hq / hkv) ≤ 16 * 48 :=
    Nat.mul_le_mul (hqtle.trans hq16) (ha.group.2.trans hmax48)
  have hprod0 : 0 < qt * (hq / hkv) := Nat.mul_pos hqt0 ha.group.1
  rw [round16_usize, round16_of_le (by omega)] at hm
  rw [round16_of_le (by omega)] at hfit
  have hle : qt * (hq / hkv) ≤ p.m := by
    rw [hm, Nat.mul_comm _ 16]
    exact le_mul_cdiv (by decide)
  have hm48 : p.m ≤ maxRows := hm ▸ hfit
  have hm16 : 16 ∣ p.m := hm ▸ Dvd.intro_left _ rfl
  obtain ⟨htn, hdvd, hs, hsmem⟩ := pickTn_some hpage
  have hdim : d / 64 ∣ 8 ∧ 0 < 8 / (d / 64) := by
    have hmem := ha.dim
    simp only [HEAD_DIMS, List.mem_cons, List.not_mem_nil, or_false] at hmem
    obtain rfl | rfl | rfl := hmem <;> decide
  have htile : p.tn / 8 ∣ 8 := by
    simp only [List.mem_cons, List.not_mem_nil, or_false] at htn
    obtain h | h | h := htn <;> rw [h] <;> decide
  have hwv0 : 0 < p.wv := by
    rw [hwv, cdiv_pos_iff hdim.2]
    omega
  constructor
  case tile =>
    rw [hqt, hg]
    exact ⟨hm16, hle, hm48⟩
  case tokens =>
    rw [hqt, hnqt]
    refine ⟨(lt_cdiv_iff hqt0).mp ?_, le_mul_cdiv hqt0⟩
    have hpos := (cdiv_pos_iff (a := qLen) hqt0).mpr ha.tokens.1
    omega
  case page => exact hdvd
  case smem =>
    obtain hc | ⟨hc, -⟩ := hctas
    all_goals
      rw [hc] at hsmem ⊢
      simp only [SMEM_LIMIT, SMEM_PER_SM] at hsmem ⊢
      omega
  case merge =>
    have hsum : p.ns * p.m ≤ 256 * 48 := Nat.mul_le_mul hns (hm48.trans hmax48)
    rw [mergeSmemBytes, SMEM_LIMIT]
    omega
  case sSlots =>
    refine reaches_of_cdiv htile (hs.trans ?_)
    generalize p.wv = wv at hwv3 hwv0
    interval_cases wv <;> decide
  case oSlots =>
    refine reaches_of_cdiv hdim.1 ?_
    rw [← hwv]
    generalize p.wv = wv at hwv3 hwv0
    interval_cases wv <;> decide
  case light =>
    rintro hc
    obtain h1 | ⟨-, h⟩ := hctas
    · omega
    · exact h

/-- The rows that are launched cover every query once: the grid takes the rows as a `u32`. -/
def CoversRows (batch qLen hq hkv : ℕ) (p : AttnPlan) : Prop :=
  ∀ len : ℕ → ℕ, (∀ b, len b ≤ qLen) → ∀ b < batch, ∀ tok < len b, ∀ head < hq,
    ∃! r : ℕ × ℕ, r.1 < u32 p.rows ∧ r.2 < p.m ∧
      ownerOf hkv p.g p.qt p.nqt len r.1 r.2 = some (b, tok, head)

/-- The loop of `plan_rows` ends, and the plan that it returns can be launched and loses no query. -/
theorem planRows_executable (fuel batch qLen hq hkv d pageSize numSms maxRows : ℕ) :
    (qLen < fuel → planRows fuel batch qLen hq hkv d pageSize numSms maxRows ≠ none) ∧
      ∀ p, planRows fuel batch qLen hq hkv d pageSize numSms maxRows = some (.ok p) →
        hq / hkv ≤ 2 ^ 64 - 16 → Executable qLen d pageSize maxRows p ∧
          (batch * hkv * p.nqt < 2 ^ 64 → p.rows = batch * hkv * p.nqt) ∧
          (batch * hkv * p.nqt < 2 ^ 32 → hq < 2 ^ 32 → CoversRows batch qLen hq hkv p) := by
  refine ⟨planRows_ends, fun p h hwide => ?_⟩
  obtain ⟨qt, ha⟩ := planRows_inv h hwide
  have hex := executable_of_accepted ha
  obtain ⟨⟨hd, hg, hqt, hnqt, hm, hwv, hrows⟩, -⟩ := planTile_inv ha.plan
  have hqt0 := ha.tile.1
  have hnqt0 : 0 < p.nqt := by
    rw [hnqt]
    exact (cdiv_pos_iff hqt0).mpr ha.tokens.1
  have hexact : batch * hkv * p.nqt < 2 ^ 64 → p.rows = batch * hkv * p.nqt := by
    intro hlt
    have hfirst : batch * hkv < 2 ^ 64 := (Nat.le_mul_of_pos_right _ hnqt0).trans_lt hlt
    rw [hrows, usize, usize, Nat.mod_eq_of_lt hfirst, Nat.mod_eq_of_lt hlt]
  refine ⟨hex, hexact, fun hlt hheads len hlen b hb tok htok head hhead => ?_⟩
  have hrows32 : u32 p.rows = batch * hkv * p.nqt := by
    rw [hexact (hlt.trans (by decide)), u32_of_lt hlt]
  have hheadsg : hkv * p.g = hq := by
    rw [hg]
    exact Nat.mul_div_cancel' (Nat.dvd_of_mod_eq_zero ha.heads.2.2)
  have hq16 : qLen ≤ 16 := ha.tokens.2
  have hmax : maxRows ≤ 48 := ha.maxRows_mem.2.1
  have hm48 := hex.tile.2.2
  have hcover := hex.tokens.2
  have htiles : p.qt * p.nqt ≤ 16 * 16 := by
    have hqt16 : p.qt ≤ 16 := hqt ▸ ha.tile.2.1.trans hq16
    have hnqt16 : p.nqt ≤ 16 := by
      rw [hnqt]
      exact (cdiv_pos_le ha.tokens.1 hqt0).2.trans hq16
    exact Nat.mul_le_mul hqt16 hnqt16
  have hl : Launch batch hkv p.g p.qt p.nqt p.m len :=
    ⟨hlt, hheadsg ▸ hheads, by omega, hex.tile.2.1, hg ▸ ha.group.1, fun b => (hlen b).trans hcover⟩
  rw [hrows32]
  exact hl.ownerOf_once hb htok (hheadsg ▸ hhead)

end

/-- Nine tokens of a request with 8 q heads a KV head: two tiles of 40 rows on 2 KV heads. -/
theorem planRows_executable_verify :
    ∃ p, planRows 10 1 9 16 2 512 64 188 48 = some (.ok p) ∧ Executable 9 512 64 48 p ∧
      p.rows = 1 * 2 * p.nqt ∧ CoversRows 1 9 16 2 p := by
  have hplan : planRows 10 1 9 16 2 512 64 188 48 =
      some (.ok ⟨512, 8, 5, 2, 48, 32, chooseSplits 4 188, 3, 1, 4⟩) := rfl
  obtain ⟨-, hall⟩ := planRows_executable 10 1 9 16 2 512 64 188 48
  obtain ⟨hex, hrows, hcover⟩ := hall _ hplan (by decide)
  exact ⟨_, hplan, hex, hrows (by decide), hcover (by decide) (by decide)⟩

/-- A group within 16 of the largest `usize` passes the check of its rows and gets a tile of no rows, and
the launch rows of many requests wrap to zero. -/
theorem planRows_wraps :
    (∃ p, planRows 2 1 1 (2 ^ 64 - 1) 1 128 64 188 48 = some (.ok p) ∧ ¬ p.qt * p.g ≤ p.m) ∧
      (∃ p, planRows 2 (2 ^ 63) 1 16 2 128 64 188 48 = some (.ok p) ∧
        p.rows ≠ 2 ^ 63 * 2 * p.nqt) ∧
      ∃ p, planRows 2 (2 ^ 31) 1 16 2 128 64 188 48 = some (.ok p) ∧ ¬ CoversRows (2 ^ 31) 1 16 2 p := by
  refine ⟨⟨⟨128, 2 ^ 64 - 1, 1, 1, 0, 64, chooseSplits 1 188, 0, 1, 1⟩, rfl, by simp⟩,
    ⟨⟨128, 8, 1, 1, 16, 64, chooseSplits 0 376, 1, 2, 0⟩, rfl, by simp⟩,
    ⟨⟨128, 8, 1, 1, 16, 64, chooseSplits 4294967296 376, 1, 2, 4294967296⟩, rfl, fun h => ?_⟩⟩
  -- the grid takes 2 ^ 32 rows as none
  obtain ⟨r, hr, -⟩ := h (fun _ => 1) (fun _ => le_rfl) 0 (by decide) 0 (by decide) 0 (by decide)
  exact absurd hr.1 (Nat.not_lt_zero _)

end SuffixHybrid.Attn
