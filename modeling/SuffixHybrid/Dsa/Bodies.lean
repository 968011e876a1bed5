import SuffixHybrid.Dsa.Indexer
import SuffixHybrid.Lib.Run

/-!
# The Helion bodies of the indexer

`dsa_decode_logits`, `dsa_group_logits` and `dsa_prefill_logits` share one split of a window (`Tune.share`), which is
that of `per` tiles of 64 columns. Each body stores the live elements of its rows once, so that all of them leave what
`dsa_logits` leaves, whatever their tiles, splits and groups are (`bodies_agree`).
-/

namespace SuffixHybrid.DsaIndexer
open Lib

variable {V : Type} (logit : ℕ → Token → V)

/-! ## Shares -/

/-- The tunables of a body, and the splits of its launch. -/
structure Tune where
  splits : ℕ
  minTiles : ℕ
  splitDiv : ℕ
  blockM : ℕ
  blockN : ℕ
  splits_pos : 0 < splits
  minTiles_pos : 0 < minTiles
  splitDiv_pos : 0 < splitDiv
  blockM_pos : 0 < blockM
  blockN_pos : 0 < blockN

/-- The tiles of a loop `hl.tile(k0, k1, block_size=block)`. -/
def hlTiles (k0 k1 : ℤ) (block : ℕ) : List ℕ := List.range (cdiv (k1 - k0).toNat block)

/-- The indices of a tile. -/
def hlIndex (k0 k1 : ℤ) (block i : ℕ) : List ℤ :=
  ((List.range block).map fun j : ℕ => k0 + i * block + j).filter (· < k1)

lemma mem_hlIndex {k0 k1 n : ℤ} {block i : ℕ} :
    n ∈ hlIndex k0 k1 block i ↔ k0 + i * block ≤ n ∧ n < k0 + i * block + block ∧ n < k1 := by
  rw [hlIndex, List.mem_filter, List.mem_map, decide_eq_true_eq]
  constructor
  · rintro ⟨⟨j, hj, rfl⟩, hn⟩
    have := List.mem_range.mp hj
    omega
  · rintro ⟨hlo, hhi, hn⟩
    exact ⟨⟨(n - (k0 + i * block)).toNat, List.mem_range.mpr (by omega), by omega⟩, hn⟩

lemma nodup_hlIndex (k0 k1 : ℤ) (block i : ℕ) : (hlIndex k0 k1 block i).Nodup := by
  refine (List.Nodup.map (fun a b h => ?_) List.nodup_range).filter _
  exact Int.ofNat_inj.mp (add_left_cancel h)

/-- A tile is told by an index of it. -/
lemma hlIndex_inj {k0 k1 n : ℤ} {block i i' : ℕ} (h : n ∈ hlIndex k0 k1 block i) (h' : n ∈ hlIndex k0 k1 block i') :
    i = i' := by
  obtain ⟨hlo, hhi, -⟩ := mem_hlIndex.mp h
  obtain ⟨hlo', hhi', -⟩ := mem_hlIndex.mp h'
  have key : ∀ a b : ℕ, k0 + (a * block : ℤ) ≤ n → n < k0 + b * block + block → a ≤ b := fun a b ha hb => by
    by_contra hlt
    have hmul : ((b + 1) * block : ℤ) ≤ a * block := by exact_mod_cast Nat.mul_le_mul_right block (not_le.mp hlt)
    rw [add_mul, one_mul] at hmul
    omega
  exact le_antisymm (key i i' hlo hhi') (key i' i hlo' hhi)

/-- The tiles cover the range of the loop. -/
lemma exists_hlIndex {k0 k1 n : ℤ} {block : ℕ} (hblock : 0 < block) :
    (∃ i ∈ hlTiles k0 k1 block, n ∈ hlIndex k0 k1 block i) ↔ k0 ≤ n ∧ n < k1 := by
  constructor
  · rintro ⟨i, -, h⟩
    obtain ⟨hlo, -, hhi⟩ := mem_hlIndex.mp h
    have hstart : (0 : ℤ) ≤ i * block := Int.mul_nonneg (Int.natCast_nonneg i) (Int.natCast_nonneg block)
    omega
  · rintro ⟨hlo, hhi⟩
    obtain ⟨d, hd⟩ := Int.eq_ofNat_of_zero_le (sub_nonneg.mpr hlo)
    have hdiv : block * (d / block) ≤ d := Nat.mul_div_le d block
    have hmod : d < block * (d / block) + block := Nat.lt_mul_div_succ d hblock
    refine ⟨d / block, List.mem_range.mpr ((lt_cdiv_iff hblock).mpr (by omega)), mem_hlIndex.mpr ?_⟩
    have hcast : ((d / block : ℕ) * block : ℤ) = (block * (d / block) : ℕ) := by rw [Nat.cast_mul, mul_comm]
    omega

lemma nodup_tiles {α : Type} {k0 k1 : ℤ} {block : ℕ} {f : ℕ → List α} (col : α → ℤ)
    (hf : ∀ i, (f i).Nodup ∧ ∀ a ∈ f i, col a ∈ hlIndex k0 k1 block i) :
    ((hlTiles k0 k1 block).flatMap f).Nodup := by
  refine List.nodup_flatMap.mpr ⟨fun i _ => (hf i).1, List.nodup_range.imp fun {i j} hne a hi hj => hne ?_⟩
  exact hlIndex_inj ((hf i).2 a hi) ((hf j).2 a hj)

lemma mem_grid {rows splits : ℕ} {p : ℕ × ℕ} : p ∈ List.range rows ×ˢ List.range splits ↔ p.1 < rows ∧ p.2 < splits := by
  rw [List.mem_product, List.mem_range, List.mem_range]

namespace Tune
variable (T : Tune)

/-- The columns of a split. -/
def per (lo hi : ℤ) : ℤ :=
  let eff := cdiv T.splits T.splitDiv
  let tiles := i32 (hi - lo + 63) / 64
  i32 (max ((tiles + eff - 1) / eff) T.minTiles * 64)

/-- The range of a split. -/
def share (lo hi : ℤ) (s : ℕ) : ℤ × ℤ :=
  let k0 := i32 (lo + s * T.per lo hi)
  (k0, min (i32 (k0 + T.per lo hi)) hi)

/-- The ranges of a launch fit into an `i32`: `base` bounds the windows' starts, and `cols` the columns. -/
def Fits (base cols : ℕ) : Prop := base + 64 * (T.splits * (cdiv cols 64 + T.minTiles)) < 2 ^ 31

variable {T} {base cols : ℕ} {lo hi : ℤ}

lemma max_cdiv {t : ℤ} {e m : ℕ} (he : 0 < e) : max ((t + e - 1) / e) (m : ℤ) = (max (cdiv t.toNat e) m : ℕ) := by
  obtain ht | ht := le_total 0 t
  · obtain ⟨t, rfl⟩ := Int.eq_ofNat_of_zero_le ht
    have hcast : ((t : ℤ) + e - 1) = ((t + e - 1 : ℕ) : ℤ) := by omega
    rw [hcast, ← Int.natCast_ediv, Int.toNat_natCast, cdiv]
    omega
  · have hle : (t + e - 1) / (e : ℤ) ≤ 0 := by
      rw [← Int.lt_add_one_iff, Int.ediv_lt_iff_lt_mul (by omega)]
      omega
    have hzero : cdiv t.toNat e = 0 := by
      rw [Int.toNat_of_nonpos ht, cdiv]
      exact Nat.div_eq_of_lt (by omega)
    rw [hzero, max_eq_right (hle.trans (Int.natCast_nonneg m)), Nat.zero_max]

/-- What `per` is where nothing wraps. -/
lemma per_eq (hf : T.Fits base cols) (hlo : 0 ≤ lo) (hbase : lo ≤ base) (hhi0 : 0 ≤ hi) (hhi : hi ≤ cols) :
    T.per lo hi = (64 * max (cdiv (cdiv (hi - lo).toNat 64) (cdiv T.splits T.splitDiv)) T.minTiles : ℕ) ∧
      lo + T.splits * T.per lo hi < 2 ^ 31 := by
  have heff : 0 < cdiv T.splits T.splitDiv := (cdiv_pos_iff T.splitDiv_pos).mpr T.splits_pos
  have hcols : cdiv (hi - lo).toNat 64 ≤ cdiv cols 64 := cdiv_mono (by decide) (by omega)
  have hround := cdiv_le_self (cdiv (hi - lo).toNat 64) heff
  have hceil : cols ≤ 64 * cdiv cols 64 := le_mul_cdiv (by decide)
  have htiles : ((hi - lo + 63) / 64).toNat = cdiv (hi - lo).toNat 64 := by
    rw [cdiv]
    omega
  have hsplits := T.splits_pos
  have hmin := T.minTiles_pos
  have hcap : max (cdiv (cdiv (hi - lo).toNat 64) (cdiv T.splits T.splitDiv)) T.minTiles ≤ cdiv cols 64 + T.minTiles :=
    max_le (by omega) (by omega)
  rw [Fits] at hf
  have hall := Nat.mul_le_mul_left T.splits hcap
  have hone := Nat.le_mul_of_pos_left (max (cdiv (cdiv (hi - lo).toNat 64) (cdiv T.splits T.splitDiv)) T.minTiles) hsplits
  have htotal := Nat.le_mul_of_pos_left (cdiv cols 64 + T.minTiles) hsplits
  have hper : T.per lo hi = (64 * max (cdiv (cdiv (hi - lo).toNat 64) (cdiv T.splits T.splitDiv)) T.minTiles : ℕ) := by
    rw [per]
    rw [i32_of_mem (z := hi - lo + 63) (by omega) (by omega), max_cdiv heff, htiles]
    generalize max (cdiv (cdiv (hi - lo).toNat 64) (cdiv T.splits T.splitDiv)) T.minTiles = q at *
    rw [i32_of_mem (by omega) (by omega)]
    omega
  refine ⟨hper, ?_⟩
  have hcast : (T.splits : ℤ) * T.per lo hi = (64 * (T.splits *
      max (cdiv (cdiv (hi - lo).toNat 64) (cdiv T.splits T.splitDiv)) T.minTiles) : ℕ) := by
    rw [hper, ← Nat.cast_mul, Nat.mul_left_comm]
  rw [hcast]
  omega

/-- The ranges of the splits, where nothing wraps. -/
lemma share_eq (hf : T.Fits base cols) (hlo : 0 ≤ lo) (hbase : lo ≤ base) (hhi0 : 0 ≤ hi) (hhi : hi ≤ cols) {s : ℕ}
    (hs : s < T.splits) :
    T.share lo hi s = (lo + s * T.per lo hi, min (lo + s * T.per lo hi + T.per lo hi) hi) ∧
      0 ≤ (s * T.per lo hi : ℤ) := by
  obtain ⟨hper, hfit⟩ := per_eq hf hlo hbase hhi0 hhi
  have hpos : 0 ≤ T.per lo hi := hper ▸ Int.natCast_nonneg _
  have hstart : (0 : ℤ) ≤ s * T.per lo hi := Int.mul_nonneg (Int.natCast_nonneg s) hpos
  have hend : ((s + 1 : ℕ) * T.per lo hi : ℤ) ≤ T.splits * T.per lo hi :=
    Int.mul_le_mul_of_nonneg_right (Int.ofNat_le.mpr hs) hpos
  rw [Nat.cast_succ, add_mul, one_mul] at hend
  rw [share, i32_of_mem (z := lo + s * T.per lo hi) (by omega) (by omega), i32_of_mem (by omega) (by omega)]
  exact ⟨rfl, hstart⟩

/-- A column of the window is in the range of one split. -/
lemma share_cover (hf : T.Fits base cols) (hlo : 0 ≤ lo) (hbase : lo ≤ base) (hhi : hi ≤ cols) {n : ℤ} (hln : lo ≤ n)
    (hnh : n < hi) : ∃ s < T.splits, ∀ s' < T.splits, (T.share lo hi s').1 ≤ n ∧ n < (T.share lo hi s').2 ↔ s' = s := by
  obtain ⟨hper, -⟩ := per_eq hf hlo hbase (hlo.trans (hln.trans hnh.le)) hhi
  generalize hq : cdiv (cdiv (hi - lo).toNat 64) (cdiv T.splits T.splitDiv) = q at hper
  have heff : 0 < cdiv T.splits T.splitDiv := (cdiv_pos_iff T.splitDiv_pos).mpr T.splits_pos
  have hcap : (hi - lo).toNat ≤ 0 + T.splits * (64 * max q T.minTiles) := by
    calc (hi - lo).toNat ≤ 64 * cdiv (hi - lo).toNat 64 := le_mul_cdiv (by decide)
      _ ≤ 64 * (cdiv T.splits T.splitDiv * q) := Nat.mul_le_mul_left _ (hq ▸ le_mul_cdiv heff)
      _ ≤ 64 * (T.splits * max q T.minTiles) :=
        Nat.mul_le_mul_left _ (Nat.mul_le_mul (cdiv_le_self _ T.splitDiv_pos) (le_max_left _ _))
      _ = 0 + T.splits * (64 * max q T.minTiles) := by rw [Nat.zero_add, Nat.mul_left_comm]
  obtain ⟨s, hs, hiff⟩ := exists_share hcap (Nat.zero_le (n - lo).toNat) (by omega)
  refine ⟨s, hs, fun s' hs' => ?_⟩
  rw [(share_eq hf hlo hbase (hlo.trans (hln.trans hnh.le)) hhi hs').1, ← hiff s', hper]
  have hcast : (s' : ℤ) * (64 * max q T.minTiles : ℕ) = (s' * (64 * max q T.minTiles) : ℕ) := (Nat.cast_mul _ _).symm
  rw [hcast]
  omega

lemma share_inside (hf : T.Fits base cols) (hlo : 0 ≤ lo) (hbase : lo ≤ base) (hhi0 : 0 ≤ hi) (hhi : hi ≤ cols) {s : ℕ}
    (hs : s < T.splits) {n : ℤ} (h : (T.share lo hi s).1 ≤ n ∧ n < (T.share lo hi s).2) : lo ≤ n ∧ n < hi := by
  obtain ⟨heq, hstart⟩ := share_eq hf hlo hbase hhi0 hhi hs
  rw [heq] at h
  omega

end Tune
/-! ## Paged bodies -/

/-- The arguments of a paged body; the block table is taken by row and entry. -/
structure Paged where
  rows : ℕ
  nCols : ℕ
  page : ℕ
  cl : ℕ → ℤ
  bt : ℕ → ℤ → ℤ

namespace Paged
variable (D : Paged) (T : Tune)

/-- A length clamped to the columns of the output. -/
def clamp (x : ℤ) : ℤ := min (max x 0) D.nCols

/-- A token of a row. -/
def token (row : ℕ) (n : ℤ) : Token := (D.bt row (n / D.page), n % D.page)

/-- The columns that a program of `dsa_decode_logits` takes. -/
def decodeLanes (r s : ℕ) : List ℤ :=
  let k := T.share 0 (D.clamp (D.cl r)) s
  (hlTiles k.1 k.2 T.blockN).flatMap (hlIndex k.1 k.2 T.blockN)

/-- `dsa_decode_logits`: its stores. -/
def decode : List (Cell × V) := (List.range D.rows ×ˢ List.range T.splits).flatMap fun p =>
  (D.decodeLanes T p.1 p.2).map fun n => ((p.1, n), logit p.1 (D.token p.1 n))

/-- The lengths of `group_pad`. -/
def clPad (i : ℕ) : ℤ := if i < D.rows then D.cl i else 0

/-- The union of the windows of a group. -/
def groupHi (g r : ℕ) : ℤ :=
  (List.range g).foldl (fun hi gi => max hi (D.clamp (D.clPad (r * g + gi)))) (D.clamp (D.clPad (r * g)))

/-- The rows and columns that a program of `dsa_group_logits` takes. -/
def groupLanes (g r s : ℕ) : List (ℕ × ℤ) :=
  let k := T.share 0 (D.groupHi g r) s
  (hlTiles k.1 k.2 T.blockN).flatMap fun i => (List.range g).flatMap fun gi =>
    ((hlIndex k.1 k.2 T.blockN i).filter (· < D.clamp (D.clPad (r * g + gi)))).map fun n => (r * g + gi, n)

/-- `dsa_group_logits` on the rows of `group_pad`: its stores. -/
def group (g : ℕ) : List (Cell × V) := (List.range (cdiv D.rows g) ×ˢ List.range T.splits).flatMap fun p =>
  (D.groupLanes T g p.1 p.2).map fun e =>
    let rr := min e.1 (D.rows - 1)
    ((rr, e.2), logit e.1 (D.token rr e.2))

/-- The table entries that `dsa_group_logits` reads. -/
def groupReads (g : ℕ) : List (ℕ × ℤ) := (List.range (cdiv D.rows g) ×ˢ List.range T.splits).flatMap fun p =>
  (D.groupLanes T g p.1 p.2).map fun e => (min e.1 (D.rows - 1), e.2 / D.page)

/-- An element of a row that a paged body stores. -/
def Live (row : ℕ) (n : ℤ) : Prop := row < D.rows ∧ 0 ≤ n ∧ n < D.nCols ∧ n < D.cl row

/-- What a cell gets. -/
def value (c : Cell) : V := logit c.1 (D.token c.1 c.2)

/-- A table entry of a live element. -/
def LiveEntry (e : ℕ × ℤ) : Prop := ∃ row n, D.Live row n ∧ e = (row, n / D.page)

variable {D T}

lemma clamp_bounds (x : ℤ) : 0 ≤ D.clamp x ∧ D.clamp x ≤ D.nCols := by
  rw [clamp]
  omega

lemma lt_clamp_iff {x n : ℤ} (hn : 0 ≤ n) : n < D.clamp x ↔ n < D.nCols ∧ n < x := by
  rw [clamp]
  omega

lemma groupHi_bounds (g r : ℕ) : 0 ≤ D.groupHi g r ∧ D.groupHi g r ≤ D.nCols := by
  have hself := foldl_max_le_iff.mp (le_refl (D.groupHi g r))
  exact ⟨(clamp_bounds _).1.trans hself.1, foldl_max_le_iff.mpr ⟨(clamp_bounds _).2, fun _ _ => (clamp_bounds _).2⟩⟩

lemma clamp_le_groupHi {g r gi : ℕ} (hgi : gi < g) : D.clamp (D.clPad (r * g + gi)) ≤ D.groupHi g r :=
  (foldl_max_le_iff.mp (le_refl (D.groupHi g r))).2 gi (List.mem_range.mpr hgi)

/-- The padding rows are dead. -/
lemma lt_clamp_clPad_iff {i : ℕ} {n : ℤ} (hn : 0 ≤ n) : n < D.clamp (D.clPad i) ↔ D.Live i n := by
  rw [lt_clamp_iff hn, clPad, Live]
  split_ifs with hi
  · exact ⟨fun h => ⟨hi, hn, h⟩, fun h => h.2.2⟩
  · exact ⟨fun h => absurd h.2 (not_lt.mpr hn), fun h => absurd h.1 hi⟩

lemma mem_groupLanes (hf : T.Fits 0 D.nCols) {g r s : ℕ} (hs : s < T.splits) {e : ℕ × ℤ} :
    e ∈ D.groupLanes T g r s ↔ (∃ gi < g, r * g + gi = e.1) ∧ D.Live e.1 e.2 ∧
      (T.share 0 (D.groupHi g r) s).1 ≤ e.2 ∧ e.2 < (T.share 0 (D.groupHi g r) s).2 := by
  have hstart : ∀ {n : ℤ}, (T.share 0 (D.groupHi g r) s).1 ≤ n ∧ n < (T.share 0 (D.groupHi g r) s).2 → 0 ≤ n := fun h =>
    (Tune.share_inside hf le_rfl le_rfl (groupHi_bounds g r).1 (groupHi_bounds g r).2 hs h).1
  rw [groupLanes, List.mem_flatMap]
  constructor
  · rintro ⟨i, hi, he⟩
    obtain ⟨gi, hgi, he⟩ := List.mem_flatMap.mp he
    obtain ⟨n, hn, rfl⟩ := List.mem_map.mp he
    obtain ⟨hn, hlim⟩ := List.mem_filter.mp hn
    have hshare := (exists_hlIndex T.blockN_pos).mp ⟨i, hi, hn⟩
    exact ⟨⟨gi, List.mem_range.mp hgi, rfl⟩, (lt_clamp_clPad_iff (hstart hshare)).mp (of_decide_eq_true hlim), hshare⟩
  · obtain ⟨row, n⟩ := e
    rintro ⟨⟨gi, hgi, rfl⟩, hlive, hshare⟩
    obtain ⟨i, hi, hn⟩ := (exists_hlIndex T.blockN_pos).mpr hshare
    have hlim := decide_eq_true ((lt_clamp_clPad_iff hlive.2.1).mpr hlive)
    exact ⟨i, hi, List.mem_flatMap.mpr
      ⟨gi, List.mem_range.mpr hgi, List.mem_map.mpr ⟨n, List.mem_filter.mpr ⟨hn, hlim⟩, rfl⟩⟩⟩

lemma nodup_groupLanes (g r s : ℕ) : (D.groupLanes T g r s).Nodup := by
  refine nodup_tiles (fun e : ℕ × ℤ => e.2) fun i => ⟨List.nodup_flatMap.mpr ⟨fun gi _ => ?_, ?_⟩, fun e he => ?_⟩
  · exact ((nodup_hlIndex ..).filter _).map fun n n' h => (Prod.mk.inj h).2
  · refine List.nodup_range.imp fun {gi gi'} hne e he he' => hne ?_
    obtain ⟨n, -, rfl⟩ := List.mem_map.mp he
    obtain ⟨n', -, h⟩ := List.mem_map.mp he'
    exact (Nat.add_left_cancel (Prod.mk.inj h).1).symm
  · obtain ⟨gi, -, he⟩ := List.mem_flatMap.mp he
    obtain ⟨n, hn, rfl⟩ := List.mem_map.mp he
    exact (List.mem_filter.mp hn).1

/-- A live row is its own row of the table and of the output. -/
lemma Live.min_eq {row : ℕ} {n : ℤ} (h : D.Live row n) : min row (D.rows - 1) = row := by
  have := h.1
  omega

/-- A live element is in the range of one split of its group. -/
lemma groupLanes_cover (hf : T.Fits 0 D.nCols) {g : ℕ} (hg : 0 < g) {row : ℕ} {n : ℤ} (hlive : D.Live row n) :
    ∃ s < T.splits, ∀ r, ∀ s' < T.splits, (row, n) ∈ D.groupLanes T g r s' ↔ r = row / g ∧ s' = s := by
  have hmod : row % g < g := Nat.mod_lt _ hg
  have hrow : row / g * g + row % g = row := Nat.div_add_mod' row g
  have hhi : n < D.groupHi g (row / g) := by
    refine lt_of_lt_of_le ?_ (clamp_le_groupHi hmod)
    rw [hrow]
    exact (lt_clamp_clPad_iff hlive.2.1).mpr hlive
  obtain ⟨s, hs, hcover⟩ := Tune.share_cover hf le_rfl le_rfl (groupHi_bounds g (row / g)).2 hlive.2.1 hhi
  refine ⟨s, hs, fun r s' hs' => ?_⟩
  rw [mem_groupLanes hf hs']
  constructor
  · rintro ⟨⟨gi, hgi, hr⟩, -, hshare⟩
    obtain rfl : r = row / g := by
      rw [← show r * g + gi = row from hr, Nat.mul_comm, Nat.mul_add_div hg, Nat.div_eq_of_lt hgi, Nat.add_zero]
    exact ⟨rfl, (hcover s' hs').mp hshare⟩
  · rintro ⟨rfl, rfl⟩
    exact ⟨⟨row % g, hmod, hrow⟩, hlive, (hcover s' hs').mpr rfl⟩

/-- `dsa_group_logits` stores each live element once, whatever its groups are, and reads the table entries of live
elements alone. -/
theorem group_exact (hf : T.Fits 0 D.nCols) {g : ℕ} (hg : 0 < g) :
    Exactly (D.group logit T g) (fun c => D.Live c.1 c.2) (D.value logit) ∧
      ∀ e ∈ D.groupReads T g, D.LiveEntry e := by
  have hprog : ∀ p ∈ List.range (cdiv D.rows g) ×ˢ List.range T.splits,
      Exactly ((D.groupLanes T g p.1 p.2).map fun e =>
          ((min e.1 (D.rows - 1), e.2), logit e.1 (D.token (min e.1 (D.rows - 1)) e.2)))
        (fun c => c ∈ D.groupLanes T g p.1 p.2) (D.value logit) := fun p hp => by
    have hmin : ∀ e ∈ D.groupLanes T g p.1 p.2, min e.1 (D.rows - 1) = e.1 := fun e he =>
      ((mem_groupLanes hf (mem_grid.mp hp).2).mp he).2.1.min_eq
    rw [List.map_congr_left (g := fun e => (e, D.value logit e)) fun e he => by rw [hmin e he, value]]
    refine (Exactly.map (nodup_groupLanes g p.1 p.2) (fun _ _ _ _ h => h) fun _ _ => rfl).congr fun c => ?_
    exact exists_eq_right
  refine ⟨(Exactly.grid (List.nodup_range.product List.nodup_range) hprog ?_).congr fun c => ?_, fun e he => ?_⟩
  · rintro ⟨r, s⟩ hp ⟨r', s'⟩ hq c hc hc'
    obtain ⟨s0, -, hcover⟩ := groupLanes_cover hf hg ((mem_groupLanes hf (mem_grid.mp hp).2).mp hc).2.1
    obtain ⟨rfl, rfl⟩ := (hcover r s (mem_grid.mp hp).2).mp hc
    obtain ⟨rfl, rfl⟩ := (hcover r' s' (mem_grid.mp hq).2).mp hc'
    rfl
  · constructor
    · rintro ⟨p, hp, hc⟩
      exact ((mem_groupLanes hf (mem_grid.mp hp).2).mp hc).2.1
    · intro hlive
      obtain ⟨s, hs, hcover⟩ := groupLanes_cover hf hg hlive
      have hr : c.1 / g < cdiv D.rows g := (lt_cdiv_iff hg).mpr ((Nat.mul_div_le c.1 g).trans_lt hlive.1)
      exact ⟨(c.1 / g, s), mem_grid.mpr ⟨hr, hs⟩, (hcover _ s hs).mpr ⟨rfl, rfl⟩⟩
  · obtain ⟨p, hp, he⟩ := List.mem_flatMap.mp he
    obtain ⟨a, ha, rfl⟩ := List.mem_map.mp he
    have hlive := ((mem_groupLanes hf (mem_grid.mp hp).2).mp ha).2.1
    exact ⟨a.1, a.2, hlive, by rw [hlive.min_eq]⟩

end Paged
/-! ## Prefill -/

/-- The arguments of `dsa_prefill_logits`. -/
structure Contig where
  rows : ℕ
  nTok : ℕ
  width : ℕ
  lo : ℕ → ℤ
  hi : ℕ → ℤ
  off : ℕ → ℤ

namespace Contig
variable (C : Contig) (T : Tune)

/-- A masked load of a row's bound. -/
def load (f : ℕ → ℤ) (row : ℕ) : ℤ := if row < C.rows then f row else 0

def kl (row : ℕ) : ℤ := max (C.load C.lo row) 0

def kh (row : ℕ) : ℤ := min (max (C.load C.hi row) 0) C.nTok

/-- A row's start, past all columns where its window is empty. -/
def start (row : ℕ) : ℤ := i32 (C.kl row + if C.kh row ≤ C.kl row then (C.nTok : ℤ) else 0)

def glo (i : ℕ) : ℤ :=
  (List.range T.blockM).foldl (fun m j => min m (C.start (i * T.blockM + j))) (C.start (i * T.blockM))

def ghi (i : ℕ) : ℤ :=
  (List.range T.blockM).foldl (fun m j => max m (C.kh (i * T.blockM + j))) (C.kh (i * T.blockM))

/-- The column of a key in the output. -/
def col (row : ℕ) (n : ℤ) : ℤ := i32 (n - C.load C.off row)

def inside (row : ℕ) (n : ℤ) : Bool := C.kl row ≤ n ∧ n < C.kh row ∧ 0 ≤ C.col row n ∧ C.col row n < C.width

/-- The rows and keys that a program stores. -/
def lanes (i s : ℕ) : List (ℕ × ℤ) :=
  let k := T.share (C.glo T i) (C.ghi T i) s
  (hlTiles k.1 k.2 T.blockN).flatMap fun t => (List.range T.blockM).flatMap fun j =>
    ((hlIndex k.1 k.2 T.blockN t).filter (C.inside (i * T.blockM + j))).map fun n => (i * T.blockM + j, n)

/-- `dsa_prefill_logits`: its stores. A key of contiguous `kv` is its tile of 64 and its place there. -/
def prefill : List (Cell × V) := (List.range (cdiv C.rows T.blockM) ×ˢ List.range T.splits).flatMap fun p =>
  (C.lanes T p.1 p.2).map fun e => ((e.1, C.col e.1 e.2), logit e.1 (e.2 / 64, e.2 % 64))

/-- A key of a row's window that has a column in the output. -/
def LiveKey (row : ℕ) (n : ℤ) : Prop :=
  row < C.rows ∧ 0 ≤ n ∧ C.lo row ≤ n ∧ n < C.hi row ∧ n < C.nTok ∧ 0 ≤ n - C.off row ∧ n - C.off row < C.width

/-- A cell that the body stores. -/
def Live (c : Cell) : Prop := C.LiveKey c.1 (c.2 + C.off c.1)

/-- What a cell gets. -/
def value (c : Cell) : V := logit c.1 ((c.2 + C.off c.1) / 64, (c.2 + C.off c.1) % 64)

/-- The bounds and the columns fit into an `i32`. -/
structure Fits (base : ℕ) : Prop where
  share : T.Fits base C.nTok
  rows : ∀ row < C.rows, (C.lo row).natAbs + C.nTok ≤ base ∧ (C.off row).natAbs + C.nTok ≤ base

variable {C T} {base : ℕ}

lemma kl_nonneg (row : ℕ) : 0 ≤ C.kl row := le_max_right _ _

lemma kh_bounds (row : ℕ) : 0 ≤ C.kh row ∧ C.kh row ≤ C.nTok := by
  rw [kh]
  omega

lemma Fits.base_lt (hf : C.Fits T base) : base < 2 ^ 31 := Nat.lt_of_le_of_lt (Nat.le_add_right ..) hf.share

lemma start_bounds (hf : C.Fits T base) (hrows : 0 < C.rows) (row : ℕ) :
    0 ≤ C.start row ∧ C.start row ≤ base ∧ (C.kl row < C.kh row → C.start row = C.kl row) := by
  have hbase := hf.base_lt
  have hkl : 0 ≤ C.kl row ∧ C.kl row + C.nTok ≤ base := by
    refine ⟨kl_nonneg row, ?_⟩
    rw [kl, load]
    split_ifs with hrow
    · have hlo := (hf.rows row hrow).1
      omega
    · have hlo := (hf.rows 0 hrows).1
      omega
  rw [start]
  split_ifs with hempty
  · rw [i32_of_mem (by omega) (by omega)]
    exact ⟨by omega, by omega, fun h => absurd h (not_lt.mpr hempty)⟩
  · rw [add_zero, i32_of_mem (by omega) (by omega)]
    exact ⟨by omega, by omega, fun _ => rfl⟩

lemma glo_bounds (hf : C.Fits T base) (hrows : 0 < C.rows) (i : ℕ) : 0 ≤ C.glo T i ∧ C.glo T i ≤ base :=
  ⟨le_foldl_min_iff.mpr ⟨(start_bounds hf hrows _).1, fun _ _ => (start_bounds hf hrows _).1⟩,
    (le_foldl_min_iff.mp (le_refl (C.glo T i))).1.trans (start_bounds hf hrows _).2.1⟩

lemma ghi_bounds (i : ℕ) : 0 ≤ C.ghi T i ∧ C.ghi T i ≤ C.nTok :=
  ⟨(kh_bounds _).1.trans (foldl_max_le_iff.mp (le_refl (C.ghi T i))).1,
    foldl_max_le_iff.mpr ⟨(kh_bounds _).2, fun _ _ => (kh_bounds _).2⟩⟩

lemma col_eq (hf : C.Fits T base) {row : ℕ} (hrow : row < C.rows) {n : ℤ} (hn : 0 ≤ n) (hcap : n < C.nTok) :
    C.col row n = n - C.off row := by
  have hbase := hf.base_lt
  have hoff := (hf.rows row hrow).2
  rw [col, load, if_pos hrow, i32_of_mem (by omega) (by omega)]

/-- The rows behind the last store nothing. -/
lemma inside_iff (hf : C.Fits T base) {row : ℕ} {n : ℤ} : C.inside row n ↔ C.LiveKey row n := by
  rw [inside, decide_eq_true_eq, LiveKey, kl, kh, load, load]
  by_cases hrow : row < C.rows
  · rw [if_pos hrow, if_pos hrow]
    constructor
    · rintro ⟨hlo, hhi, hcol⟩
      rw [col_eq hf hrow (by omega) (by omega)] at hcol
      exact ⟨hrow, by omega, by omega, by omega, by omega, hcol⟩
    · rintro ⟨-, hn, hlo, hhi, hcap, hcol⟩
      rw [col_eq hf hrow hn hcap]
      exact ⟨by omega, by omega, hcol⟩
  · rw [if_neg hrow, if_neg hrow]
    exact ⟨fun h => by omega, fun h => absurd h.1 hrow⟩

lemma mem_lanes (hf : C.Fits T base) {i s : ℕ} {e : ℕ × ℤ} : e ∈ C.lanes T i s ↔
    (∃ j < T.blockM, i * T.blockM + j = e.1) ∧ C.LiveKey e.1 e.2 ∧
      (T.share (C.glo T i) (C.ghi T i) s).1 ≤ e.2 ∧ e.2 < (T.share (C.glo T i) (C.ghi T i) s).2 := by
  rw [lanes, List.mem_flatMap]
  constructor
  · rintro ⟨t, ht, he⟩
    obtain ⟨j, hj, he⟩ := List.mem_flatMap.mp he
    obtain ⟨n, hn, rfl⟩ := List.mem_map.mp he
    obtain ⟨hn, hin⟩ := List.mem_filter.mp hn
    exact ⟨⟨j, List.mem_range.mp hj, rfl⟩, (inside_iff hf).mp hin, (exists_hlIndex T.blockN_pos).mp ⟨t, ht, hn⟩⟩
  · obtain ⟨row, n⟩ := e
    rintro ⟨⟨j, hj, rfl⟩, hlive, hshare⟩
    obtain ⟨t, ht, hn⟩ := (exists_hlIndex T.blockN_pos).mpr hshare
    exact ⟨t, ht, List.mem_flatMap.mpr ⟨j, List.mem_range.mpr hj, List.mem_map.mpr
      ⟨n, List.mem_filter.mpr ⟨hn, (inside_iff hf).mpr hlive⟩, rfl⟩⟩⟩

lemma nodup_lanes (i s : ℕ) : (C.lanes T i s).Nodup := by
  refine nodup_tiles (fun e : ℕ × ℤ => e.2) fun t => ⟨List.nodup_flatMap.mpr ⟨fun j _ => ?_, ?_⟩, fun e he => ?_⟩
  · exact ((nodup_hlIndex ..).filter _).map fun n n' h => (Prod.mk.inj h).2
  · refine List.nodup_range.imp fun {j j'} hne e he he' => hne ?_
    obtain ⟨n, -, rfl⟩ := List.mem_map.mp he
    obtain ⟨n', -, h⟩ := List.mem_map.mp he'
    exact (Nat.add_left_cancel (Prod.mk.inj h).1).symm
  · obtain ⟨j, -, he⟩ := List.mem_flatMap.mp he
    obtain ⟨n, hn, rfl⟩ := List.mem_map.mp he
    exact (List.mem_filter.mp hn).1

/-- A live key is in the range of one split of its block of rows. -/
lemma lanes_cover (hf : C.Fits T base) {row : ℕ} {n : ℤ} (hlive : C.LiveKey row n) :
    ∃ s < T.splits, ∀ i, ∀ s' < T.splits, (row, n) ∈ C.lanes T i s' ↔ i = row / T.blockM ∧ s' = s := by
  have hm := T.blockM_pos
  have hmod : row % T.blockM < T.blockM := Nat.mod_lt _ hm
  have hrow : row / T.blockM * T.blockM + row % T.blockM = row := Nat.div_add_mod' row T.blockM
  have hrows : 0 < C.rows := (Nat.zero_le row).trans_lt hlive.1
  obtain ⟨hlo, hhi⟩ : C.kl row ≤ n ∧ n < C.kh row := by
    have hin := (inside_iff hf).mpr hlive
    rw [inside, decide_eq_true_eq] at hin
    exact ⟨hin.1, hin.2.1⟩
  have hglo : C.glo T (row / T.blockM) ≤ n := by
    have hstart := (le_foldl_min_iff.mp (le_refl (C.glo T (row / T.blockM)))).2 _ (List.mem_range.mpr hmod)
    rw [hrow, (start_bounds hf hrows row).2.2 (hlo.trans_lt hhi)] at hstart
    exact hstart.trans hlo
  have hghi : n < C.ghi T (row / T.blockM) := by
    have hend := (foldl_max_le_iff.mp (le_refl (C.ghi T (row / T.blockM)))).2 _ (List.mem_range.mpr hmod)
    rw [hrow] at hend
    exact hhi.trans_le hend
  obtain ⟨s, hs, hcover⟩ := Tune.share_cover hf.share (glo_bounds hf hrows _).1 (glo_bounds hf hrows _).2 (ghi_bounds _).2
    hglo hghi
  refine ⟨s, hs, fun i s' hs' => ?_⟩
  rw [mem_lanes hf]
  constructor
  · rintro ⟨⟨j, hj, hi⟩, -, hshare⟩
    obtain rfl : i = row / T.blockM := by
      rw [← show i * T.blockM + j = row from hi, Nat.mul_comm, Nat.mul_add_div hm, Nat.div_eq_of_lt hj, Nat.add_zero]
    exact ⟨rfl, (hcover s' hs').mp hshare⟩
  · rintro ⟨rfl, rfl⟩
    exact ⟨⟨row % T.blockM, hmod, hrow⟩, hlive, (hcover s' hs').mpr rfl⟩

/-- `dsa_prefill_logits` stores each key of each row's window once, in its column. -/
theorem prefill_exact (hf : C.Fits T base) : Exactly (C.prefill logit T) C.Live (C.value logit) := by
  have hcol : ∀ {i s : ℕ} {e : ℕ × ℤ}, e ∈ C.lanes T i s → C.col e.1 e.2 = e.2 - C.off e.1 := fun he => by
    obtain ⟨-, ⟨hrow, hn, -, -, hcap, -⟩, -⟩ := (mem_lanes hf).mp he
    exact col_eq hf hrow hn hcap
  have hprog : ∀ p : ℕ × ℕ, Exactly
      ((C.lanes T p.1 p.2).map fun e => ((e.1, C.col e.1 e.2), logit e.1 (e.2 / 64, e.2 % 64)))
      (fun c => (c.1, c.2 + C.off c.1) ∈ C.lanes T p.1 p.2) (C.value logit) := fun p => by
    refine (Exactly.map (nodup_lanes p.1 p.2) (fun e he e' he' h => ?_) fun e he => ?_).congr fun c => ?_
    · rw [hcol he, hcol he'] at h
      obtain ⟨hrow, hn⟩ := Prod.mk.inj h
      rw [hrow] at hn
      exact Prod.ext hrow (sub_left_inj.mp hn)
    · rw [value, hcol he, sub_add_cancel]
    · constructor
      · rintro ⟨e, he, rfl⟩
        rw [hcol he, sub_add_cancel]
        exact he
      · intro hc
        refine ⟨_, hc, ?_⟩
        rw [hcol hc, add_sub_cancel_right]
  refine (Exactly.grid (List.nodup_range.product List.nodup_range) (fun p _ => hprog p) ?_).congr fun c => ?_
  · rintro ⟨i, s⟩ hp ⟨i', s'⟩ hq c hc hc'
    obtain ⟨s0, -, hcover⟩ := lanes_cover hf ((mem_lanes hf).mp hc).2.1
    obtain ⟨rfl, rfl⟩ := (hcover i s (mem_grid.mp hp).2).mp hc
    obtain ⟨rfl, rfl⟩ := (hcover i' s' (mem_grid.mp hq).2).mp hc'
    rfl
  · constructor
    · rintro ⟨p, hp, hc⟩
      exact ((mem_lanes hf).mp hc).2.1
    · intro hlive
      obtain ⟨s, hs, hcover⟩ := lanes_cover hf hlive
      have hi : c.1 / T.blockM < cdiv C.rows T.blockM :=
        (lt_cdiv_iff T.blockM_pos).mpr ((Nat.mul_div_le c.1 T.blockM).trans_lt hlive.1)
      exact ⟨(c.1 / T.blockM, s), mem_grid.mpr ⟨hi, hs⟩, (hcover _ s hs).mpr ⟨rfl, rfl⟩⟩

end Contig

/-! ## All bodies -/

namespace Args
variable (A : Args)

/-- The arguments of the decode bodies for a paged launch: `repeat_interleave` gives each row its row of the table. -/
def toPaged : Paged := ⟨A.rows, A.nCols, 64, A.hi, fun row => A.bt (row / A.btDiv)⟩

/-- The arguments of the prefill body for a contiguous launch. -/
def toContig : Contig :=
  ⟨A.rows, A.nCols, A.nCols, fun row => if A.hasLo then A.lo row else 0, A.hi, fun _ => 0⟩

variable {A}

/-- Two rows in one group, each with pages of its own but for the second, which they share. -/
def pair (paged : Bool) : Args where
  rows := 2
  group := 2
  slices := 1
  nCols := 100
  splits := 2
  minTiles := 1
  btDiv := 1
  paged := paged
  hasLo := false
  lo _ := 0
  hi row := 70 + row
  bt row k := if k = 1 then 7 else row
  group_pos := Nat.two_pos
  slices_pos := Nat.one_pos
  warps := Nat.le_of_ble_eq_true rfl
  splits_pos := Nat.two_pos
  btDiv_pos := Nat.one_pos

/-- A tuning with small blocks. -/
def pairTune : Tune where
  splits := 2
  minTiles := 1
  splitDiv := 1
  blockM := 2
  blockN := 16
  splits_pos := Nat.two_pos
  minTiles_pos := Nat.one_pos
  splitDiv_pos := Nat.one_pos
  blockM_pos := Nat.two_pos
  blockN_pos := Nat.le_of_ble_eq_true rfl

theorem dsaLogits_exact_pair : ∃ out, (pair true).dsaLogits Prod.mk 5 (fun _ _ _ => (0, 0)) = some out ∧
    Exactly out.1 (fun c => (pair true).Live c.1 c.2) ((pair true).value Prod.mk) ∧
      ∀ r ∈ out.2, (pair true).LiveEntry r :=
  dsaLogits_exact Prod.mk (A := pair true) (show cdiv 100 64 + 2 * (1 + 1) < 2 ^ 32 by decide)
    (show cdiv 100 64 * 2 < 5 by decide) _

theorem group_exact_pair :
    Exactly ((pair true).toPaged.group Prod.mk pairTune 2) (fun c => (pair true).toPaged.Live c.1 c.2)
        ((pair true).toPaged.value Prod.mk) ∧
      ∀ e ∈ (pair true).toPaged.groupReads pairTune 2, (pair true).toPaged.LiveEntry e :=
  Paged.group_exact Prod.mk (D := (pair true).toPaged) (T := pairTune)
    (show 0 + 64 * (2 * (cdiv 100 64 + 1)) < 2 ^ 31 by decide) Nat.two_pos

theorem prefill_exact_pair :
    Exactly ((pair false).toContig.prefill Prod.mk pairTune) (pair false).toContig.Live
      ((pair false).toContig.value Prod.mk) :=
  @Contig.prefill_exact _ Prod.mk _ _ 100 ⟨show 100 + 64 * (2 * (cdiv 100 64 + 1)) < 2 ^ 31 by decide,
    fun _ _ => ⟨show (0 : ℤ).natAbs + 100 ≤ 100 by decide, show (0 : ℤ).natAbs + 100 ≤ 100 by decide⟩⟩

end Args
end SuffixHybrid.DsaIndexer
