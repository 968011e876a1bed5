import SuffixHybrid.NvGemm.Plan
import SuffixHybrid.NvGemm.Tile

/-!
# Shared memory and stores

Where the threads of `gemm_fused` read and write shared memory, and which elements the threads of the kernels
store. All accesses are inside of the size that `fused_layout` returns (`inside_layout`), and each element of the
output or of a split's tile is stored once (`stores_tile`, `stores_fixup`, `stores_reduce`). Indices are natural
numbers; where a launch is not refused they fit into 32 bits (`no_wrap`).
-/

namespace SuffixHybrid.NvGemm
open Lib

/-! ## Accesses -/

/-- A launch of an `nvfp4_gemm_f` entry. The workspace is null if there is one split. -/
structure Single where
  MT : ℕ
  m : ℕ
  n : ℕ
  k : ℕ
  kps : ℕ
  splits : ℕ
  flags : ℕ
  ch : ℕ

namespace Single
variable (L : Single)

/-- `k_begin`. -/
def kBegin (split : ℕ) : ℕ := split * L.kps * 64

/-- `k_end`. -/
def kEnd (split : ℕ) : ℕ := if L.k < L.kBegin split + L.kps * 64 then L.k else L.kBegin split + L.kps * 64

/-- `astr`. -/
def astr : ℕ := L.kps * 32 + 16

/-- `sstr`. -/
def sstr : ℕ := 4 * (L.kps ||| 1)

/-- `qs`: where the scales begin. -/
def qs : ℕ := 16 + L.m * L.astr

/-- `tile`. -/
def tile : ℕ := L.m * 32

/-- The stores of the quantisation: the codes in two words and the scale. An access is an offset and a number of
bytes. -/
def quantise (split tid : ℕ) : List (ℕ × ℕ) :=
  let nblk := (L.kEnd split - L.kBegin split) / 16
  (steps tid (L.m * nblk) 128).flatMap fun i =>
    let r := i / nblk
    let j := i % nblk
    [(16 + (r * L.astr + 8 * j), 4), (16 + (r * L.astr + 8 * j) + 4, 4), (L.qs + (r * L.sstr + j), 1)]

/-- `load_a` of the step at `k0`, from the quantised rows. -/
def loadA (split lane k0 : ℕ) : List (ℕ × ℕ) :=
  let off := (k0 - L.kBegin split) / 2 + 4 * (lane % 4)
  (List.range L.MT).flatMap fun I =>
    let r0 := 16 * I + lane / 4
    let r1 := r0 + 8
    let sr := 16 * I + 8 * (lane % 2) + lane / 4
    (if r0 < L.m then [(16 + (r0 * L.astr + off), 4), (16 + (r0 * L.astr + off) + 16, 4)] else []) ++
      (if r1 < L.m then [(16 + (r1 * L.astr + off), 4), (16 + (r1 * L.astr + off) + 16, 4)] else []) ++
      if sr < L.m then [(L.qs + (sr * L.sstr + k0 / 16 - L.kBegin split / 16), 4)] else []

/-- `k_loop`: the steps of 64. -/
def kLoop (split lane : ℕ) : List (ℕ × ℕ) :=
  (steps (L.kBegin split) (L.kEnd split) 64).flatMap (L.loadA split lane)

/-- `cn`. -/
def cn (s0 : ℕ) : ℕ := if L.splits - s0 < L.ch then L.splits - s0 else L.ch

/-- The float `i` of the staging area, which the running sums follow. -/
def stg (i : ℕ) : ℕ × ℕ := (16 + 4 * i, 4)

/-- What a thread stages of the chunk from `s0` on, four elements a round. -/
def stage (s0 tid : ℕ) : List (ℕ × ℕ) :=
  let tot := L.cn s0 * L.tile
  (steps tid tot 512).flatMap fun i => ([i, i + 128, i + 256, i + 384].filter (· < tot)).map stg

/-- What it sums: the running sum and the splits of the chunk. -/
def sum (x s0 tid : ℕ) : List (ℕ × ℕ) :=
  ((steps tid L.tile 128).filter fun o => x * 32 + o % 32 < L.n).flatMap fun o =>
    stg (L.ch * L.tile + o) :: (List.range (L.cn s0)).map fun s => stg (s * L.tile + o)

/-- The fixup: the flag, the running sums, and the chunks. -/
def fixup (x tid : ℕ) : List (ℕ × ℕ) :=
  (0, 4) :: (steps tid L.tile 128).map (fun o => stg (L.ch * L.tile + o)) ++
    (steps 0 L.splits L.ch).flatMap fun s0 => L.stage s0 tid ++ L.sum x s0 tid

/-- The accesses of a thread of `gemm_fused`. Warps behind the last column take part in the quantisation and in the
fixup. -/
def accesses (x split tid : ℕ) : List (ℕ × ℕ) :=
  (if L.flags &&& FUSE_QUANT ≠ 0 then
    L.quantise split tid ++ if x * 32 + tid / 32 * 8 < L.n then L.kLoop split (tid % 32) else [] else []) ++
    if L.flags &&& FUSE_REDUCE ≠ 0 ∧ 1 < L.splits then L.fixup x tid else []

end Single

/-! ## Stores -/

/-- `store_tile`: the elements that a thread of column tile `x` stores. -/
def storeTile (MT m n x tid : ℕ) : List (ℕ × ℕ) :=
  let n0 := x * 32 + tid / 32 * 8
  let g := tid % 32 / 4
  let col := n0 + 2 * (tid % 32 % 4)
  if n0 < n then
    (List.range MT).flatMap fun I => [16 * I + g, 16 * I + g + 8].flatMap fun row =>
      if row < m then [(row, col), (row, col + 1)] else []
  else []

/-- The elements of the output that a thread stores in the fixup of column tile `x`. -/
def fixupOut (m n x tid : ℕ) : List (ℕ × ℕ) :=
  ((steps tid (m * 32) 128).filter fun o => x * 32 + o % 32 < n).map fun o => (o / 32, x * 32 + o % 32)

/-- The element of the output that a thread of `nvfp4_splitk_reduce` stores. -/
def splitkReduce (m n x tid : ℕ) : List (ℕ × ℕ) :=
  let i := x * 256 + tid
  if m * n ≤ i then [] else [(i / n, i % n)]

/-- Each element is stored once, by one thread, and nothing else is. -/
structure StoredOnce (m n grid threads : ℕ) (stores : ℕ → ℕ → List (ℕ × ℕ)) : Prop where
  inside : ∀ x < grid, ∀ tid < threads, ∀ e ∈ stores x tid, e.1 < m ∧ e.2 < n
  once : ∀ row < m, ∀ col < n, ∃ x < grid, ∃ tid < threads, ∀ x' < grid, ∀ tid' < threads,
    (stores x' tid').count (row, col) = if x' = x ∧ tid' = tid then 1 else 0

variable {MT m n : ℕ}

lemma fst_of_mem_row {row col : ℕ} {e : ℕ × ℕ} (h : e ∈ if row < m then [(row, col), (row, col + 1)] else []) :
    e.1 = row := by
  split_ifs at h
  · simp only [List.mem_cons, List.not_mem_nil, or_false] at h
    obtain rfl | rfl := h <;> rfl
  · cases h

lemma storeTile_nodup (x tid : ℕ) : (storeTile MT m n x tid).Nodup := by
  unfold storeTile
  dsimp only
  split_ifs
  · rw [List.nodup_flatMap]
    refine ⟨fun I _ => ?_, List.nodup_range.imp fun {I J} hne => ?_⟩
    · rw [List.nodup_flatMap]
      refine ⟨fun row _ => ?_, ?_⟩
      · split_ifs <;> simp
      · refine List.pairwise_pair.mpr fun e he he' => ?_
        have h1 := fst_of_mem_row he
        have h2 := fst_of_mem_row he'
        omega
    · intro e he he'
      obtain ⟨row, hrow, he⟩ := List.mem_flatMap.mp he
      obtain ⟨row', hrow', he'⟩ := List.mem_flatMap.mp he'
      simp only [List.mem_cons, List.not_mem_nil, or_false] at hrow hrow'
      have hg : tid % 32 / 4 < 8 := Nat.div_lt_of_lt_mul (Nat.mod_lt tid (by decide))
      have h1 := fst_of_mem_row he
      have h2 := fst_of_mem_row he'
      generalize tid % 32 / 4 = g at hrow hrow' hg
      omega
  · exact List.nodup_nil

/-- Lists without repetitions that share an element in one place only store it once. -/
lemma storedOnce_of {grid threads : ℕ} {stores : ℕ → ℕ → List (ℕ × ℕ)} (hnodup : ∀ x tid, (stores x tid).Nodup)
    (hinside : ∀ x < grid, ∀ tid < threads, ∀ e ∈ stores x tid, e.1 < m ∧ e.2 < n)
    (honce : ∀ row < m, ∀ col < n, ∃ x < grid, ∃ tid < threads, ∀ x' < grid, ∀ tid' < threads,
      (row, col) ∈ stores x' tid' ↔ x' = x ∧ tid' = tid) : StoredOnce m n grid threads stores where
  inside := hinside
  once row hrow col hcol := by
    obtain ⟨x, hx, tid, htid, h⟩ := honce row hrow col hcol
    refine ⟨x, hx, tid, htid, fun x' hx' tid' htid' => ?_⟩
    split_ifs with heq
    · exact List.count_eq_one_of_mem (hnodup x' tid') ((h x' hx' tid' htid').mpr heq)
    · exact List.count_eq_zero_of_not_mem fun hmem => heq ((h x' hx' tid' htid').mp hmem)

lemma mem_storeTile {x tid row col : ℕ} : (row, col) ∈ storeTile MT m n x tid ↔
    x * 32 + tid / 32 * 8 < n ∧ ∃ I < MT, ∃ r, (r = 16 * I + tid % 32 / 4 ∨ r = 16 * I + tid % 32 / 4 + 8) ∧
      r < m ∧ row = r ∧ (col = x * 32 + tid / 32 * 8 + 2 * (tid % 32 % 4) ∨
        col = x * 32 + tid / 32 * 8 + 2 * (tid % 32 % 4) + 1) := by
  unfold storeTile
  dsimp only
  by_cases hn : x * 32 + tid / 32 * 8 < n
  · rw [if_pos hn, and_iff_right hn]
    simp only [List.mem_flatMap, List.mem_range, List.mem_cons, List.not_mem_nil, or_false]
    refine exists_congr fun I => and_congr_right fun _ => exists_congr fun r => and_congr_right fun _ => ?_
    by_cases hr : r < m
    · rw [if_pos hr, and_iff_right hr, and_or_left]
      simp only [List.mem_cons, List.not_mem_nil, or_false, Prod.mk.injEq]
    · rw [if_neg hr]
      exact ⟨fun h => absurd h List.not_mem_nil, fun h => absurd h.1 hr⟩
  · rw [if_neg hn]
    exact ⟨fun h => absurd h List.not_mem_nil, fun h => absurd h.1 hn⟩

/-- The thread that stores an element of a tile. -/
lemma tile_digits {x w g q I row col : ℕ} (hw : w < 4) (hg : g < 8) (hq : q < 4)
    (hr : row = 16 * I + g ∨ row = 16 * I + g + 8)
    (hc : col = x * 32 + w * 8 + 2 * q ∨ col = x * 32 + w * 8 + 2 * q + 1) :
    col / 32 = x ∧ col % 32 / 8 = w ∧ row % 8 = g ∧ col % 8 / 2 = q :=
  ⟨by omega, by omega, by omega, by omega⟩

lemma thread_digits {w g q : ℕ} (hg : g < 8) (hq : q < 4) :
    (w * 32 + g * 4 + q) / 32 = w ∧ (w * 32 + g * 4 + q) % 32 / 4 = g ∧ (w * 32 + g * 4 + q) % 32 % 4 = q :=
  ⟨by omega, by omega, by omega⟩

lemma thread_eq (tid : ℕ) : tid / 32 * 32 + tid % 32 / 4 * 4 + tid % 32 % 4 = tid := by omega

/-- The threads of a split. -/
lemma storedOnce_tile (hrows : m ≤ 16 * MT) (hn : n % 8 = 0) : StoredOnce m n (cdiv n 32) 128 (storeTile MT m n) := by
  refine storedOnce_of storeTile_nodup (fun x _ tid htid e he => ?_) fun row hrow col hcol => ?_
  · obtain ⟨h0, I, -, r, -, hm, h1, h2⟩ := mem_storeTile.mp he
    exact ⟨by omega, by omega⟩
  · refine ⟨col / 32, (lt_cdiv_iff (by decide)).mpr (by omega), col % 32 / 8 * 32 + row % 8 * 4 + col % 8 / 2, by omega,
      fun x' _ tid' htid' => ?_⟩
    rw [mem_storeTile]
    constructor
    · rintro ⟨-, I, -, r, hr, -, rfl, hc⟩
      have hw : tid' / 32 < 4 := Nat.div_lt_of_lt_mul htid'
      have hg : tid' % 32 / 4 < 8 := Nat.div_lt_of_lt_mul (Nat.mod_lt tid' (by decide))
      obtain ⟨h1, h2, h3, h4⟩ := tile_digits hw hg (Nat.mod_lt _ (by decide)) hr hc
      rw [h1, h2, h3, h4]
      exact ⟨rfl, (thread_eq tid').symm⟩
    · rintro ⟨rfl, rfl⟩
      have hq : col % 8 / 2 < 4 := Nat.div_lt_of_lt_mul (Nat.mod_lt col (by decide))
      obtain ⟨h1, h2, h3⟩ := thread_digits (w := col % 32 / 8) (Nat.mod_lt row (show 0 < 8 by decide)) hq
      rw [h1, h2, h3]
      exact ⟨by omega, row / 16, by omega, row, by omega, hrow, rfl, by omega⟩

/-- The threads of a split. -/
theorem stores_tile (hn : n % 16 = 0) : StoredOnce m n (cdiv n 32) 128 (storeTile (tilesFor m) m n) :=
  storedOnce_tile (le_mul_cdiv (by decide)) (by omega)

lemma mem_fixupOut {x tid row col : ℕ} :
    (row, col) ∈ fixupOut m n x tid ↔ ∃ k, tid + k * 128 < m * 32 ∧ x * 32 + (tid + k * 128) % 32 < n ∧
      (tid + k * 128) / 32 = row ∧ x * 32 + (tid + k * 128) % 32 = col := by
  simp only [fixupOut, List.mem_map, List.mem_filter, mem_steps_iff (show 0 < 128 by decide), decide_eq_true_eq,
    Prod.mk.injEq]
  constructor
  · rintro ⟨_, ⟨⟨k, rfl, hlt⟩, hcol⟩, hrow, hc⟩
    exact ⟨k, hlt, hcol, hrow, hc⟩
  · rintro ⟨k, hlt, hcol, hrow, hc⟩
    exact ⟨_, ⟨⟨k, rfl, hlt⟩, hcol⟩, hrow, hc⟩

/-- The threads of the fixups. -/
theorem stores_fixup : StoredOnce m n (cdiv n 32) 128 (fixupOut m n) := by
  refine storedOnce_of (fun x tid => ?_) (fun x _ tid _ e he => ?_) fun row hrow col hcol => ?_
  · refine List.Nodup.map (fun a b h => ?_) ((nodup_steps (by decide)).filter _)
    obtain ⟨h1, h2⟩ := Prod.mk.inj h
    omega
  · obtain ⟨k, hlt, hcol, hrow, hc⟩ := mem_fixupOut.mp he
    omega
  · refine ⟨col / 32, (lt_cdiv_iff (by decide)).mpr (by omega), (row * 32 + col % 32) % 128, by omega,
      fun x' _ tid' htid' => ?_⟩
    rw [mem_fixupOut]
    constructor
    · rintro ⟨k, hlt, -, hr, hc⟩
      omega
    · rintro ⟨rfl, rfl⟩
      refine ⟨(row * 32 + col % 32) / 128, ?_⟩
      have ho : (row * 32 + col % 32) % 128 + (row * 32 + col % 32) / 128 * 128 = row * 32 + col % 32 := by omega
      rw [ho]
      omega

/-- The threads of the separate reduction. -/
theorem stores_reduce : StoredOnce m n (cdiv (m * n) 256) 256 (splitkReduce m n) := by
  have hmem : ∀ {x tid row col}, (row, col) ∈ splitkReduce m n x tid ↔
      x * 256 + tid < m * n ∧ (x * 256 + tid) / n = row ∧ (x * 256 + tid) % n = col := fun {x tid row col} => by
    unfold splitkReduce
    dsimp only
    split_ifs with hle
    · exact ⟨fun h => absurd h List.not_mem_nil, fun h => absurd h.1 (not_lt.mpr hle)⟩
    · rw [List.mem_singleton, Prod.mk.injEq, eq_comm, @eq_comm _ col]
      exact ⟨fun h => ⟨not_le.mp hle, h⟩, fun h => h.2⟩
  refine storedOnce_of (fun x tid => ?_) (fun x _ tid _ e he => ?_) fun row hrow col hcol => ?_
  · unfold splitkReduce
    dsimp only
    split_ifs
    · exact List.nodup_nil
    · exact List.nodup_singleton _
  · obtain ⟨hlt, hrow, hcol⟩ := hmem.mp he
    rw [Nat.mul_comm m n] at hlt
    have hn : 0 < n := Nat.pos_of_mul_pos_right (Nat.zero_lt_of_lt hlt)
    exact ⟨hrow ▸ Nat.div_lt_of_lt_mul hlt, hcol ▸ Nat.mod_lt _ hn⟩
  · have hplace : row * n + col < m * n := place_lt hrow hcol
    have hdiv : (row * n + col) / n = row := by
      rw [Nat.mul_comm, Nat.mul_add_div (Nat.zero_lt_of_lt hcol), Nat.div_eq_of_lt hcol, Nat.add_zero]
    have hmod : (row * n + col) % n = col := Nat.mul_add_mod_of_lt hcol
    refine ⟨(row * n + col) / 256, (lt_cdiv_iff (by decide)).mpr (by omega), (row * n + col) % 256, by omega,
      fun x' _ tid' htid' => ?_⟩
    rw [hmem]
    constructor
    · rintro ⟨hlt, hr, hc⟩
      have hsame : x' * 256 + tid' = row * n + col := by
        rw [← Nat.div_add_mod (x' * 256 + tid') n, hr, hc, Nat.mul_comm]
      omega
    · rintro ⟨rfl, rfl⟩
      have ho : (row * n + col) / 256 * 256 + (row * n + col) % 256 = row * n + col := by omega
      rw [ho]
      exact ⟨hplace, hdiv, hmod⟩

/-! ## Sizes -/

/-- The launch that the launcher makes. -/
def launchOf (m n k kps splits flags : ℕ) : Single :=
  ⟨tilesFor m, m, n, k, kps, splits, flags, (fusedLayout m kps splits flags).2⟩

namespace Single
variable {L : Single} {x split tid : ℕ}

/-- Bytes of a row that is in the table. -/
lemma row_end {r rows stride b : ℕ} (hr : r < rows) (hb : b ≤ stride) : r * stride + b ≤ rows * stride :=
  calc r * stride + b ≤ r * stride + stride := Nat.add_le_add_left hb _
    _ = (r + 1) * stride := (Nat.succ_mul r stride).symm
    _ ≤ rows * stride := Nat.mul_le_mul_right stride hr

lemma kEnd_le (L : Single) (split : ℕ) : L.kEnd split ≤ L.kBegin split + L.kps * 64 := by
  unfold kEnd
  split_ifs
  · omega
  · exact le_rfl

/-- The bytes of the quantised rows and scales. -/
def quantEnd (L : Single) : ℕ := L.qs + L.m * L.sstr

lemma kps_le_sstr (L : Single) : 4 * L.kps ≤ L.sstr := Nat.mul_le_mul_left 4 Nat.left_le_or

lemma codes_le {r b : ℕ} (hr : r < L.m) (hb : b ≤ L.kps * 32) : 16 + (r * L.astr + b) ≤ L.quantEnd := by
  have := row_end hr (show b ≤ L.astr by unfold astr; omega)
  unfold quantEnd qs
  omega

lemma scales_le {r b : ℕ} (hr : r < L.m) (hb : b ≤ 4 * L.kps) : L.qs + (r * L.sstr + b) ≤ L.quantEnd := by
  have := row_end hr (hb.trans L.kps_le_sstr)
  unfold quantEnd
  omega

lemma quantise_inside {a : ℕ × ℕ} (h : a ∈ L.quantise split tid) : a.1 + a.2 ≤ L.quantEnd := by
  simp only [quantise, List.mem_flatMap, mem_steps_iff (show 0 < 128 by decide)] at h
  obtain ⟨i, ⟨-, -, hi⟩, ha⟩ := h
  have hblk : (L.kEnd split - L.kBegin split) / 16 ≤ 4 * L.kps := by
    have := L.kEnd_le split
    omega
  generalize (L.kEnd split - L.kBegin split) / 16 = nblk at hi ha hblk
  have hpos : 0 < nblk := Nat.pos_of_mul_pos_left (Nat.zero_lt_of_lt hi)
  have hr : i / nblk < L.m := Nat.div_lt_of_lt_mul (Nat.mul_comm _ _ ▸ hi)
  have hj : i % nblk < nblk := Nat.mod_lt i hpos
  simp only [List.mem_cons, List.not_mem_nil, or_false] at ha
  obtain rfl | rfl | rfl := ha
  · have := codes_le hr (show 8 * (i % nblk) + 4 ≤ L.kps * 32 by omega)
    dsimp only
    omega
  · have := codes_le hr (show 8 * (i % nblk) + 4 + 4 ≤ L.kps * 32 by omega)
    dsimp only
    omega
  · have := scales_le hr (show i % nblk + 1 ≤ 4 * L.kps by omega)
    dsimp only
    omega

lemma kLoop_inside {lane : ℕ} {a : ℕ × ℕ} (h : a ∈ L.kLoop split lane) : a.1 + a.2 ≤ L.quantEnd := by
  simp only [kLoop, List.mem_flatMap, mem_steps_iff (show 0 < 64 by decide)] at h
  obtain ⟨_, ⟨t, rfl, hlt⟩, ha⟩ := h
  have ht : t < L.kps := by
    have := L.kEnd_le split
    omega
  have hoff : (L.kBegin split + t * 64 - L.kBegin split) / 2 = t * 32 := by omega
  have hscale : ∀ r, r * L.sstr + (L.kBegin split + t * 64) / 16 - L.kBegin split / 16 = r * L.sstr + 4 * t := fun r => by
    unfold kBegin
    omega
  have hcodes : ∀ {r : ℕ}, (a ∈ if r < L.m then
      [(16 + (r * L.astr + (t * 32 + 4 * (lane % 4))), 4), (16 + (r * L.astr + (t * 32 + 4 * (lane % 4))) + 16, 4)]
      else []) → a.1 + a.2 ≤ L.quantEnd := fun {r} ha => by
    split_ifs at ha with hr
    · have hend := codes_le hr (show t * 32 + 4 * (lane % 4) + 20 ≤ L.kps * 32 by omega)
      simp only [List.mem_cons, List.not_mem_nil, or_false] at ha
      obtain rfl | rfl := ha
      · dsimp only
        omega
      · dsimp only
        omega
    · cases ha
  simp only [loadA, List.mem_flatMap, List.mem_append, hoff, hscale] at ha
  obtain ⟨I, -, (ha | ha) | ha⟩ := ha
  · exact hcodes ha
  · exact hcodes ha
  · split_ifs at ha with hr
    · have hend := scales_le hr (show 4 * t + 4 ≤ 4 * L.kps by omega)
      rw [List.mem_singleton.mp ha]
      dsimp only
      omega
    · cases ha

/-- The bytes of the staging area and the running sums. -/
def stageEnd (L : Single) : ℕ := 16 + (L.ch + 1) * L.m * 32 * 4

lemma stg_le {i : ℕ} (hi : i < (L.ch + 1) * L.tile) : (stg i).1 + (stg i).2 ≤ L.stageEnd := by
  have htile : (L.ch + 1) * L.tile = (L.ch + 1) * L.m * 32 := (Nat.mul_assoc _ _ _).symm
  rw [htile] at hi
  unfold stg stageEnd
  dsimp only
  omega

lemma sums_lt {o : ℕ} (ho : o < L.tile) : L.ch * L.tile + o < (L.ch + 1) * L.tile := by
  rw [Nat.succ_mul]
  omega

lemma cn_le (L : Single) (s0 : ℕ) : L.cn s0 ≤ L.ch := by
  unfold cn
  split_ifs <;> omega

lemma fixup_inside {a : ℕ × ℕ} (h : a ∈ L.fixup x tid) : a.1 + a.2 ≤ L.stageEnd := by
  have hchunk : ∀ s0 i, i < L.cn s0 * L.tile → i < (L.ch + 1) * L.tile := fun s0 i hi =>
    hi.trans_le (Nat.mul_le_mul_right _ ((L.cn_le s0).trans (Nat.le_succ _)))
  simp only [fixup, List.cons_append, List.mem_cons, List.mem_append, List.mem_map, List.mem_flatMap] at h
  obtain rfl | ⟨o, ho, rfl⟩ | ⟨s0, -, ha | ha⟩ := h
  · unfold stageEnd
    dsimp only
    omega
  · obtain ⟨-, -, ho⟩ := (mem_steps_iff (by decide)).mp ho
    exact stg_le (sums_lt ho)
  · simp only [stage, List.mem_flatMap, List.mem_map, List.mem_filter, decide_eq_true_eq] at ha
    obtain ⟨j, -, i, ⟨-, hi⟩, rfl⟩ := ha
    exact stg_le (hchunk s0 i hi)
  · simp only [sum, List.mem_flatMap, List.mem_filter, List.mem_cons, List.mem_map, List.mem_range] at ha
    obtain ⟨o, ⟨ho, -⟩, rfl | ⟨s, hs, rfl⟩⟩ := ha
    · obtain ⟨-, -, ho⟩ := (mem_steps_iff (by decide)).mp ho
      exact stg_le (sums_lt ho)
    · obtain ⟨-, -, ho⟩ := (mem_steps_iff (by decide)).mp ho
      exact stg_le (hchunk s0 _ (place_lt hs ho))

end Single

variable {k kps splits flags : ℕ}

lemma quantEnd_launchOf : (launchOf m n k kps splits flags).quantEnd =
    16 + (m * (kps * 32 + 16) + m * 4 * (kps ||| 1)) := by
  rw [Nat.mul_assoc m 4, ← Nat.add_assoc]
  rfl

lemma accesses_cases {L : Single} {x split tid : ℕ} {a : ℕ × ℕ} (h : a ∈ L.accesses x split tid) :
    (L.flags &&& FUSE_QUANT ≠ 0 ∧ (a ∈ L.quantise split tid ∨ a ∈ L.kLoop split (tid % 32))) ∨
      ((L.flags &&& FUSE_REDUCE ≠ 0 ∧ 1 < L.splits) ∧ a ∈ L.fixup x tid) := by
  obtain h | h := List.mem_append.mp h
  · by_cases hq : L.flags &&& FUSE_QUANT ≠ 0
    · rw [if_pos hq, List.mem_append] at h
      refine .inl ⟨hq, h.imp_right fun h => ?_⟩
      split_ifs at h
      · exact h
      · cases h
    · rw [if_neg hq] at h
      cases h
  · split_ifs at h with hr
    · exact .inr ⟨hr, h⟩
    · cases h

/-- The accesses are inside of the layout. -/
theorem inside_layout {x split tid : ℕ} {a : ℕ × ℕ} (h : a ∈ (launchOf m n k kps splits flags).accesses x split tid) :
    a.1 + a.2 ≤ (fusedLayout m kps splits flags).1 := by
  obtain ⟨hq, h⟩ | ⟨hr, h⟩ := accesses_cases h
  · refine (h.elim Single.quantise_inside Single.kLoop_inside).trans ?_
    rw [quantEnd_launchOf, fusedLayout, if_pos (show flags &&& FUSE_QUANT ≠ 0 from hq)]
    exact Nat.add_le_add_left (le_max_left _ _) 16
  · refine (Single.fixup_inside h).trans ?_
    have hr : flags &&& FUSE_REDUCE ≠ 0 ∧ 1 < splits := hr
    simp only [fusedLayout, if_pos hr]
    exact Nat.add_le_add_left (le_max_right _ _) 16

/-- The indices of a launch that is not refused fit into 32 bits. -/
lemma no_wrap (hm : 0 < m) (hsplits : splits ≤ MAX_SPLITS) (hq : flags &&& FUSE_QUANT ≠ 0)
    (hfit : (fusedLayout m kps splits flags).1 ≤ MAX_DYN_SMEM) {i : ℕ} (hi : i < splits) :
    i * kps * 64 + kps * 64 < 2 ^ 32 := by
  have hrow : kps * 32 ≤ MAX_DYN_SMEM := by
    refine le_trans ?_ hfit
    rw [fusedLayout, if_pos hq]
    have h1 : kps * 32 + 16 ≤ m * (kps * 32 + 16) := Nat.le_mul_of_pos_left _ hm
    have h2 := le_max_left (m * (kps * 32 + 16) + m * 4 * (kps ||| 1))
      (if flags &&& FUSE_REDUCE ≠ 0 ∧ 1 < splits then
        (min (max (STAGE_FLOATS / (32 * m) - 1) 1) splits + 1) * m * 32 * 4 else 0)
    dsimp only
    omega
  have hkps : kps ≤ 3168 := by
    unfold MAX_DYN_SMEM at hrow
    omega
  have hi64 : i < 64 := hi.trans_le hsplits
  have := Nat.mul_le_mul hi64.le hkps
  omega

/-! ## Agreement -/

/-- What plan, launcher and kernel agree on: the splits and their ranges, the layout of shared memory with all
accesses inside, and who stores what. -/
structure Agree (n m k : ℕ) (p : Py.Plan) (kps s : ℕ) : Prop where
  kps_eq : p.kps = kps
  splits_eq : p.splits = s
  tiles_eq : p.tiles = tilesFor m
  ranges : splitRanges k s = (kps, s)
  nonempty : ∀ i < s, i * kps * 64 < min k ((i + 1) * kps * 64)
  partition : ExactCover (fun i e => i < s ∧ i * kps * 64 ≤ e ∧ e < min k ((i + 1) * kps * 64)) (· < k)
  layout : ∀ flags, Py.fusedLayout m kps s flags =
    .ok (((fusedLayout m kps s flags).1 : ℤ), ((fusedLayout m kps s flags).2 : ℤ))
  planned : p.ch = (fusedLayout m kps s p.flags).2 ∧
    p.smem = if p.flags ≠ 0 then ((fusedLayout m kps s p.flags).1 : ℤ) else 0
  inside : ∀ flags x split tid, ∀ a ∈ (launchOf m n k kps s flags).accesses x split tid,
    a.1 + a.2 ≤ (fusedLayout m kps s flags).1
  fits : ∀ flags, flags &&& FUSE_QUANT ≠ 0 → (fusedLayout m kps s flags).1 ≤ MAX_DYN_SMEM → ∀ i < s,
    i * kps * 64 + kps * 64 < 2 ^ 32
  sums : p.partials = if 1 < s then (s : ℤ) * m * n else 0
  tile : StoredOnce m n (cdiv n 32) 128 (storeTile (tilesFor m) m n)
  fixup : StoredOnce m n (cdiv n 32) 128 (fixupOut m n)
  reduce : StoredOnce m n (cdiv (m * n) 256) 256 (splitkReduce m n)

/-- Where `validate_w` accepts the splits of a plan, plan, launcher and kernel agree; and the workspace of
`partial_elems` has room for the sums of every number of rows, with the splits of the policy. -/
theorem plan_agrees {env : Py.Env} {n m k : ℕ} {splits : Option ℤ} {fused : Option Py.Fused} {prequant : Bool}
    {pf : Option ℤ} {p : Py.Plan} {w wsf out partials : T}
    (hp : Py.plan env n k m splits fused prequant pf = .ok p)
    (hv : validateW w wsf out partials m k p.splits.toNat = .ok n) :
    (∃ kps s, Agree n m k p kps s) ∧ (splits = none → ∀ env' maxM e, m ≤ maxM →
      Py.partialElems env' n k (maxM : ℕ) = .ok e → p.partials ≤ e) := by
  obtain ⟨hm, hm64, hk, hk64, hn, hn16, hs, hs64, -⟩ := accepted_of_validateW hv
  refine ⟨?_, fun hnone env' maxM e hmax he => Py.partialElems_covers he (hnone ▸ hp) hm hmax⟩
  have hsteps : 0 < k / 64 := by omega
  obtain ⟨kps, s, hkps, hsp, hranges⟩ := Py.plan_ranges hp (by omega) hsteps
  rw [hsp, Int.toNat_natCast] at hs hs64
  obtain ⟨-, htiles, hpart, smem, hlay, hsmem⟩ := Py.plan_ok hp
  rw [hkps, hsp, Py.fusedLayout_cast hm] at hlay
  obtain ⟨hsmem', hch⟩ := Prod.mk.inj (Except.ok.inj hlay)
  obtain ⟨hk1, hk2⟩ := Prod.mk.inj hranges
  have hkps0 : 0 < kps := by
    rw [← hk1]
    exact (cdiv_pos_iff hs).mpr hsteps
  have hcount : cdiv (k / 64) kps = s := by
    rw [← hk1]
    exact hk2
  have hstep : ∀ i, i < s ↔ i * kps < k / 64 := fun i => by rw [← hcount, lt_cdiv_iff hkps0, Nat.mul_comm]
  have hshape : ∀ i, i * kps * 64 = i * (kps * 64) ∧ (i + 1) * kps * 64 = i * (kps * 64) + kps * 64 := fun i =>
    ⟨Nat.mul_assoc i kps 64, by rw [Nat.mul_assoc, Nat.succ_mul]⟩
  refine ⟨kps, s, hkps, hsp, ?_, hranges, fun i hi => ?_, ?_, Py.fusedLayout_cast hm kps s, ⟨hch.symm, ?_⟩,
    fun _ _ _ _ _ => inside_layout, fun _ hq hfit i hi => no_wrap hm hs64 hq hfit hi, ?_, stores_tile hn16,
    stores_fixup, stores_reduce⟩
  · rw [htiles, Py.tilesFor_cast]
  · have := (hstep i).mp hi
    rw [(hshape i).2, ← (hshape i).1]
    omega
  · have hcover : k ≤ s * (kps * 64) := by
      have h : k / 64 ≤ kps * cdiv (k / 64) kps := le_mul_cdiv hkps0
      rw [hcount, Nat.mul_comm] at h
      rw [← Nat.mul_assoc]
      omega
    have hchunks := exactCover_chunks (Nat.mul_pos hkps0 (by decide : 0 < 64)) hcover
    refine ⟨fun i e he => (Nat.lt_min.mp he.2.2).1, fun e he => ?_⟩
    obtain ⟨i, ⟨hi, hlo, hhi⟩, huniq⟩ := hchunks.once e he
    have hsame : ∀ j, min k ((j + 1) * kps * 64) = min (j * (kps * 64) + kps * 64) k := fun j => by
      rw [(hshape j).2, min_comm]
    simp only [hsame]
    simp only [(hshape _).1]
    exact ⟨i, ⟨hi, hlo, hhi⟩, huniq⟩
  · rw [hsmem, ← hsmem']
  · rw [hpart, hsp]
    simp only [Nat.one_lt_cast]

/-- The first block of a small launch, in two splits. -/
theorem plan_agrees_small : ∃ p : Py.Plan, ∃ kps s, p.splits = 2 ∧ Agree 16 1 128 p kps s := by
  have hp : Py.plan ⟨.ok "all", .ok 1, .ok none⟩ (16 : ℕ) (128 : ℕ) (1 : ℕ) (some 2) none false none =
      .ok ⟨1, 2, 1, (1, 2), 2, "nvfp4_gemm_f1", 32, true, true, 3, 0, 400, 2, 1⟩ := rfl
  have hv : validateW ⟨[16, 64], [64, 1], "torch.uint8"⟩ ⟨[128, 8], [8, 1], "torch.uint8"⟩
      ⟨[1, 16], [16, 1], "torch.bfloat16"⟩ ⟨[32], [1], "torch.float32"⟩ 1 128 2 = .ok 16 := rfl
  obtain ⟨kps, s, h⟩ := (plan_agrees hp hv).1
  exact ⟨_, kps, s, rfl, h⟩

end SuffixHybrid.NvGemm
