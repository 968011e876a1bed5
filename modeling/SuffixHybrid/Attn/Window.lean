import SuffixHybrid.Attn.Rows

/-!
# Which keys the attention kernel sees

`Call` is a launch of both kernels. Each CTA of `nvfp4_attn_partial` takes the KV tiles of one split of a
q tile and masks their keys; `nvfp4_attn_merge` writes the rows and zeroes the padding. Positions are
`i32`, indices `u32`.
-/

namespace SuffixHybrid.Attn
open Lib

/-- The arguments of a launch. -/
structure Call where
  batch : ℕ
  hkv : ℕ
  g : ℕ
  qt : ℕ
  nqt : ℕ
  m : ℕ
  d : ℕ
  tn : ℕ
  ns : ℕ
  slots : ℕ
  pageSize : ℕ
  tokens : ℕ
  windowLeft : ℤ
  seqLens : ℕ → ℕ
  qoIndptr : ℕ → ℕ

namespace Call
variable (c : Call)

/-- The rows of the grid. -/
def rows : ℕ := c.batch * c.hkv * c.nqt

/-- The query tokens of a request. -/
def len (b : ℕ) : ℕ := c.qoIndptr (b + 1) - c.qoIndptr b

/-- What a row of a launch row owns. -/
def owner (r row : ℕ) : Option (ℕ × ℕ × ℕ) := ownerOf c.hkv c.g c.qt c.nqt c.len r row

/-! ## The partial kernel -/

/-- `q0`: the position of the first query of a q tile. -/
def firstPos (b tile : ℕ) : ℤ :=
  i32 (i32 (c.seqLens b - i32 (c.len b)) + i32 (u32 (tile * c.qt)))

/-- `lo_t` and `hi_t`: the KV tiles of a q tile. -/
def keyTiles (b tile : ℕ) : ℕ × ℕ :=
  let q0 := c.firstPos b tile
  let hi := i32 (q0 + i32 c.qt)
  let hi := if hi > c.seqLens b then (c.seqLens b : ℤ) else hi
  let hi := if hi < 0 then 0 else hi
  let lo := if 0 ≤ c.windowLeft then
      if i32 (q0 - c.windowLeft) < 0 then 0 else i32 (q0 - c.windowLeft)
    else 0
  (lo.toNat / c.tn, cdiv hi.toNat c.tn)

/-- `t0` and `t1`: the KV tiles of a split. -/
def splitRange (loT hiT per s : ℕ) : ℕ × ℕ :=
  let t0 := u32 (loT + u32 (s * per))
  (t0, min (u32 (t0 + per)) hiT)

/-- The KV tiles that the CTA of a q tile and a split reads. -/
def ctaTiles (b tile s : ℕ) : ℕ × ℕ :=
  let (loT, hiT) := c.keyTiles b tile
  splitRange loT hiT (Device.splitTiles (hiT - loT) (u32 c.rows) c.ns c.slots c.tn) s

/-- The mask of a key for a query position. -/
def Allowed (b : ℕ) (qpos kp : ℤ) : Prop :=
  kp ≤ qpos ∧ kp < c.seqLens b ∧ ¬ (0 ≤ c.windowLeft ∧ i32 (kp + c.windowLeft) < qpos)

/-- The CTA of a q tile and a split leaves a key unmasked for the query `i` of the tile. -/
def Attends (b tile i s : ℕ) (key : ℤ) : Prop :=
  ∃ j off, (c.ctaTiles b tile s).1 ≤ j ∧ j < (c.ctaTiles b tile s).2 ∧ off < c.tn ∧
    key = i32 (u32 (u32 (j * c.tn) + off)) ∧ c.Allowed b (i32 (c.firstPos b tile + i32 i)) key

/-- A launch row that has queries reads a KV tile in a split. -/
def Reads (r s j : ℕ) : Prop :=
  let b := requestOf c.hkv c.nqt r
  let tile := tileOf c.nqt r
  u32 (tile * c.qt) < c.len b ∧ (c.ctaTiles b tile s).1 ≤ j ∧ j < (c.ctaTiles b tile s).2

/-! ## The merge kernel -/

/-- The output row and head that the merge of a row writes. -/
def merged (r row : ℕ) : Option (ℕ × ℕ) :=
  (c.owner r row).map fun (b, tok, head) => (u32 (c.qoIndptr b + tok), head)

/-- The first padding row: the end of the last request of the grid. -/
def tail : ℕ := c.qoIndptr (u32 c.rows / u32 (c.hkv * c.nqt))

/-- The items of a thread of the last CTA, 256 apart. -/
def item (tid k : ℕ) : ℕ := u32 (tid + k * 256)

/-- The output row of an item. -/
def padRow (item : ℕ) : ℕ := u32 (c.tail + item / u32 (c.hkv * c.g * 8))

/-- A thread of the last CTA zeroes an output row, head and chunk of 8 in its pass `k`. -/
def Zeroes (tid k : ℕ) (out : ℕ × ℕ × ℕ) : Prop :=
  tid < 256 ∧ (∀ k' ≤ k, c.padRow (item tid k') < c.tokens) ∧
    out = (c.padRow (item tid k), item tid k / 8 % u32 (c.hkv * c.g), item tid k % 8)

/-! ## The sizes -/

/-- The position of the first query of a q tile. -/
def pos0 (b tile : ℕ) : ℕ := c.seqLens b - c.len b + tile * c.qt

/-- The first key in the window of a q tile. -/
def lowKey (b tile : ℕ) : ℕ :=
  if 0 ≤ c.windowLeft then ((c.pos0 b tile : ℤ) - c.windowLeft).toNat else 0

/-- The KV tile of the first key in the window of a q tile. -/
def loTile (b tile : ℕ) : ℕ := c.lowKey b tile / c.tn

/-- The end of the KV tiles of a q tile. -/
def hiTile (b tile : ℕ) : ℕ := cdiv (min (c.pos0 b tile + c.qt) (c.seqLens b)) c.tn

/-- The KV tiles per split of a q tile. -/
def per (b tile : ℕ) : ℕ :=
  Device.splitTiles (c.hiTile b tile - c.loTile b tile) c.rows c.ns c.slots c.tn

/-- The arguments are those of a plan, and products fit a `u32`. -/
structure Fits : Prop where
  launch : Launch c.batch c.hkv c.g c.qt c.nqt c.m c.len
  heads : 0 < c.hkv
  qt_le : c.qt ≤ 16
  tile : c.tn ∈ [64, 32, 16]
  splits : 0 < c.ns
  dim : 128 ≤ c.d
  output : c.tokens * (c.hkv * c.g) * c.d < 2 ^ 32
  window : -2 ^ 31 ≤ c.windowLeft ∧ c.windowLeft < 2 ^ 31
  ends : ∀ b, c.qoIndptr b < 2 ^ 31
  products : ∀ b tile, tile * c.qt < c.len b →
    (∀ p ∈ products (c.hiTile b tile - c.loTile b tile) c.rows c.ns c.slots c.tn, p < 2 ^ 32) ∧
      ∀ s < c.ns, s * c.per b tile < 2 ^ 32

end Call

end SuffixHybrid.Attn

/-!
## Each visible key in exactly one split
-/

namespace SuffixHybrid.Attn
open Lib

namespace Call
variable {c : Call} {b tile : ℕ}

/-! ## The key range of a q tile -/

/-- A request of a launch: its lengths are those of a sequence. -/
structure Request (c : Call) (b : ℕ) : Prop where
  fits : c.Fits
  index : b < c.batch
  short : c.len b ≤ c.seqLens b
  word : c.seqLens b < 2 ^ 31

lemma Fits.tn_pos (hc : c.Fits) : 0 < c.tn := by
  have hmem := hc.tile
  simp only [List.mem_cons, List.not_mem_nil, or_false] at hmem
  omega

/-- `q0` does not overflow. -/
lemma Request.firstPos_eq (hr : c.Request b) (ht : tile * c.qt < c.len b) :
    c.firstPos b tile = c.pos0 b tile := by
  have hshort := hr.short
  have hword := hr.word
  have htile : u32 (tile * c.qt) = tile * c.qt := u32_of_lt (by omega)
  have hlen : i32 (c.len b) = c.len b := i32_of_mem (by omega) (by omega)
  have hfirst : i32 ((c.seqLens b : ℤ) - c.len b) = (c.seqLens b : ℤ) - c.len b :=
    i32_of_mem (by omega) (by omega)
  have hoff : i32 ((tile * c.qt : ℕ) : ℤ) = (tile * c.qt : ℕ) := i32_of_mem (by omega) (by omega)
  rw [firstPos, htile, hlen, hfirst, hoff, i32_of_mem (by omega) (by omega), pos0]
  omega

lemma Request.pos0_lt (hr : c.Request b) (ht : tile * c.qt < c.len b) : c.pos0 b tile < c.seqLens b := by
  have hshort := hr.short
  rw [pos0]
  omega

/-- The KV tiles of a q tile whose end fits an `i32`. -/
lemma Request.keyTiles_eq (hr : c.Request b) (ht : tile * c.qt < c.len b)
    (hend : c.pos0 b tile + c.qt < 2 ^ 31) : c.keyTiles b tile = (c.loTile b tile, c.hiTile b tile) := by
  have hpos := hr.pos0_lt ht
  have hword := hr.word
  have hqt := hr.fits.qt_le
  have hwin := hr.fits.window
  simp only [keyTiles, hr.firstPos_eq ht]
  have hqt32 : i32 (c.qt : ℤ) = c.qt := i32_of_mem (by omega) (by omega)
  have hhi : i32 ((c.pos0 b tile : ℤ) + c.qt) = (c.pos0 b tile : ℤ) + c.qt :=
    i32_of_mem (by omega) (by omega)
  have hlo : 0 ≤ c.windowLeft → i32 ((c.pos0 b tile : ℤ) - c.windowLeft) = c.pos0 b tile - c.windowLeft :=
    fun h => i32_of_mem (by omega) (by omega)
  have hlow : (if 0 ≤ c.windowLeft then
      if i32 ((c.pos0 b tile : ℤ) - c.windowLeft) < 0 then 0 else i32 ((c.pos0 b tile : ℤ) - c.windowLeft)
      else 0).toNat = if 0 ≤ c.windowLeft then ((c.pos0 b tile : ℤ) - c.windowLeft).toNat else 0 := by
    split
    case isTrue h =>
      rw [hlo h]
      split <;> omega
    case isFalse => rfl
  rw [hqt32, hhi, hlow, loTile, lowKey, hiTile]
  have hhigh (x : ℤ) (hx : x = (c.pos0 b tile : ℤ) + c.qt) :
      (if (if x > c.seqLens b then (c.seqLens b : ℤ) else x) < 0 then 0
        else if x > c.seqLens b then (c.seqLens b : ℤ) else x).toNat =
      min (c.pos0 b tile + c.qt) (c.seqLens b) := by
    split <;> split <;> omega
  rw [hhigh _ rfl]

/-- The end of a q tile that does not fit comes out negative, and the q tile has no keys. -/
lemma Request.keyTiles_overflow (hr : c.Request b) (ht : tile * c.qt < c.len b)
    (hend : 2 ^ 31 ≤ c.pos0 b tile + c.qt) : (c.keyTiles b tile).2 = 0 := by
  have hpos := hr.pos0_lt ht
  have hword := hr.word
  have hqt := hr.fits.qt_le
  have hqt32 : i32 (c.qt : ℤ) = c.qt := i32_of_mem (by omega) (by omega)
  have hhi : i32 ((c.pos0 b tile : ℤ) + c.qt) = (c.pos0 b tile : ℤ) + c.qt - 2 ^ 32 :=
    i32_of_ge (by omega) (by omega)
  have hneg : (c.pos0 b tile : ℤ) + c.qt - 2 ^ 32 < 0 := by omega
  simp only [keyTiles, hr.firstPos_eq ht, hqt32, hhi]
  rw [if_neg (by omega : ¬ (c.pos0 b tile : ℤ) + c.qt - 2 ^ 32 > c.seqLens b), if_pos hneg]
  rw [cdiv, Int.toNat_zero, Nat.zero_add]
  exact Nat.div_eq_of_lt (Nat.sub_lt hr.fits.tn_pos Nat.one_pos)

lemma Request.qt_pos (hr : c.Request b) (ht : tile * c.qt < c.len b) : 0 < c.qt := by
  refine Nat.pos_of_ne_zero fun h => ?_
  have hlen := hr.fits.launch.len_le b
  rw [h, Nat.zero_mul] at hlen
  omega

/-- A q tile with queries has a KV tile. -/
lemma Request.loTile_lt (hr : c.Request b) (ht : tile * c.qt < c.len b) :
    c.loTile b tile < c.hiTile b tile ∧ c.hiTile b tile < 2 ^ 31 := by
  have hpos := hr.pos0_lt ht
  have hqt := hr.qt_pos ht
  have htn := hr.fits.tn_pos
  constructor
  · rw [hiTile, lt_cdiv_iff htn, loTile]
    refine (Nat.mul_div_le _ _).trans_lt ?_
    rw [lowKey]
    split <;> omega
  · refine Nat.lt_of_le_of_lt ?_ hr.word
    rw [hiTile, cdiv_le_iff htn]
    exact (min_le_right _ _).trans (Nat.le_mul_of_pos_left _ htn)

/-! ## The splits of a range -/

section Range
variable {lo hi per ns s j : ℕ}

/-- The tiles of a split, if only its first tile may wrap. -/
lemma mem_splitRange (lo j : ℕ) (hhi : hi < 2 ^ 31) (hper : per ≤ max hi 2) (hprod : s * per < 2 ^ 32) :
    ((splitRange lo hi per s).1 ≤ j ∧ j < (splitRange lo hi per s).2) ↔
      u32 (lo + s * per) ≤ j ∧ j < u32 (lo + s * per) + per ∧ j < hi := by
  simp only [splitRange, u32_of_lt hprod]
  generalize u32 (lo + s * per) = t0
  rw [Nat.lt_min]
  obtain hlt | hge := Nat.lt_or_ge t0 hi
  · rw [u32_of_lt (by omega)]
  · omega

/-- Every tile of a range is in exactly one split if and only if the splits are long enough and no first
tile that wraps comes back into the range. -/
lemma split_once_iff (hlo : lo < hi) (hhi : hi < 2 ^ 31) (hper : 2 ≤ per)
    (hprod : ∀ s < ns, s * per < 2 ^ 32) (hns : 0 < ns) :
    (∀ j, lo ≤ j → j < hi →
        ∃! s, s < ns ∧ u32 (lo + s * per) ≤ j ∧ j < u32 (lo + s * per) + per ∧ j < hi) ↔
      hi - lo ≤ ns * per ∧ ∀ s < ns, 2 ^ 32 ≤ lo + s * per → lo + s * per - 2 ^ 32 + per ≤ lo := by
  constructor
  · intro h
    constructor
    · by_contra hshort
      obtain ⟨s, ⟨hs, -, hj, -⟩, -⟩ := h (lo + ns * per) (Nat.le_add_right _ _) (by omega)
      have hle : s * per + per ≤ ns * per := by
        rw [← Nat.succ_mul]
        exact Nat.mul_le_mul_right per hs
      rw [u32_of_lt (by omega)] at hj
      omega
    · intro s hs hwrap
      by_contra hback
      have hsp := hprod s hs
      obtain ⟨s', -, huniq⟩ := h lo le_rfl hlo
      have h0 : u32 (lo + 0 * per) = lo := by
        rw [Nat.zero_mul, Nat.add_zero, u32_of_lt (by omega)]
      have hback' : u32 (lo + s * per) = lo + s * per - 2 ^ 32 := by
        rw [u32]
        omega
      have hs0 : 0 = s' := huniq 0 ⟨hns, by omega, by omega, hlo⟩
      have hss : s = s' := huniq s ⟨hs, by omega, by omega, hlo⟩
      rw [hss, ← hs0, Nat.zero_mul] at hwrap
      omega
  · rintro ⟨hlong, hback⟩ j hloj hjhi
    have hper0 : 0 < per := by omega
    have hdiv := Nat.div_add_mod (j - lo) per
    have hmod := Nat.mod_lt (j - lo) hper0
    rw [Nat.mul_comm] at hdiv
    have hs : (j - lo) / per < ns := by
      rw [Nat.div_lt_iff_lt_mul hper0]
      omega
    have hfirst : u32 (lo + (j - lo) / per * per) = lo + (j - lo) / per * per := u32_of_lt (by omega)
    refine ⟨(j - lo) / per, ⟨hs, ?_, ?_, hjhi⟩, ?_⟩
    · rw [hfirst]
      omega
    · rw [hfirst]
      omega
    · rintro s ⟨hsn, hsj, hjs, -⟩
      have hsp := hprod s hsn
      obtain hlt | hge := Nat.lt_or_ge (lo + s * per) (2 ^ 32)
      · rw [u32_of_lt hlt] at hsj hjs
        symm
        rw [Nat.div_eq_iff hper0]
        omega
      · have hwrap : u32 (lo + s * per) = lo + s * per - 2 ^ 32 := by
          rw [u32]
          omega
        have := hback s hsn hge
        omega

end Range

/-! ## The mask -/

/-- The causal window of a query position. -/
def Visible (c : Call) (pos key : ℤ) : Prop :=
  0 ≤ key ∧ key ≤ pos ∧ (0 ≤ c.windowLeft → pos - c.windowLeft ≤ key)

/-- The mask of a key is the causal window, if the sum of the window test fits an `i32`. -/
lemma allowed_iff {pos key : ℤ} (hkey : 0 ≤ key) (hpos : pos < c.seqLens b)
    (hwin : 0 ≤ c.windowLeft → pos + c.windowLeft < 2 ^ 31) :
    c.Allowed b pos key ↔ c.Visible pos key := by
  rw [Allowed, Visible]
  constructor
  · rintro ⟨hle, -, hmask⟩
    refine ⟨hkey, hle, fun h => ?_⟩
    have hsum : i32 (key + c.windowLeft) = key + c.windowLeft :=
      i32_of_mem (by omega) (by have := hwin h; omega)
    rw [hsum] at hmask
    omega
  · rintro ⟨-, hle, hge⟩
    refine ⟨hle, by omega, fun ⟨h, hlt⟩ => ?_⟩
    have hsum : i32 (key + c.windowLeft) = key + c.windowLeft :=
      i32_of_mem (by omega) (by have := hwin h; omega)
    rw [hsum] at hlt
    have := hge h
    omega

/-- The window test of the last key of a query wraps, and masks it. -/
lemma not_allowed_self {pos : ℤ} (hpos : 0 ≤ pos) (hword : pos < 2 ^ 31) (hwin : c.windowLeft < 2 ^ 31)
    (h0 : 0 ≤ c.windowLeft) (hwrap : 2 ^ 31 ≤ pos + c.windowLeft) : ¬ c.Allowed b pos pos := by
  rintro ⟨-, -, hmask⟩
  refine hmask ⟨h0, ?_⟩
  rw [i32_of_ge hwrap (by omega)]
  omega

/-! ## One query -/

lemma Fits.rows_lt (hc : c.Fits) : u32 c.rows = c.rows := u32_of_lt hc.launch.rows

/-- The key of an offset in a KV tile. -/
lemma Request.key_eq (hr : c.Request b) {j off : ℕ} (hj : j < c.hiTile b tile) (hoff : off < c.tn) :
    i32 (u32 (u32 (j * c.tn) + off)) = (j * c.tn + off : ℕ) ∧ j * c.tn < c.seqLens b := by
  have hword := hr.word
  have hlt : j * c.tn < c.seqLens b := by
    rw [hiTile, lt_cdiv_iff hr.fits.tn_pos, Nat.mul_comm] at hj
    omega
  have hend : j * c.tn + c.tn ≤ 2 ^ 31 := by
    have hmem := hr.fits.tile
    simp only [List.mem_cons, List.not_mem_nil, or_false] at hmem
    obtain h | h | h := hmem <;> rw [h] at hlt ⊢ <;> omega
  have hsum : j * c.tn + off < 2 ^ 31 := by omega
  generalize j * c.tn = first at hlt hsum
  have hfirst : u32 first = first := u32_of_lt (by omega)
  have hkey : u32 (first + off) = first + off := u32_of_lt (by omega)
  rw [hfirst, hkey]
  exact ⟨i32_of_mem (by omega) (by omega), hlt⟩

/-- The position of a query of a q tile. -/
lemma Request.qpos_eq (hr : c.Request b) {i : ℕ} (hi : tile * c.qt + i < c.len b) :
    i32 (c.firstPos b tile + i32 i) = (c.pos0 b tile + i : ℕ) := by
  have hword := hr.word
  have hshort := hr.short
  have hpos : c.pos0 b tile + i < c.seqLens b := by
    rw [pos0]
    omega
  rw [hr.firstPos_eq (by omega)]
  generalize c.pos0 b tile = pos at hpos
  have hi32 : i32 (i : ℤ) = i := i32_of_mem (by omega) (by omega)
  rw [hi32]
  exact i32_of_mem (by omega) (by omega)

/-- A key that a query attends to lies in a KV tile of the split and passes the mask. -/
lemma Request.attends_iff (hr : c.Request b) {i s : ℕ} (hs : s < c.ns) (hi : tile * c.qt + i < c.len b)
    (hend : c.pos0 b tile + c.qt < 2 ^ 31) {key : ℕ} :
    c.Attends b tile i s key ↔ c.Allowed b (c.pos0 b tile + i : ℕ) key ∧
      u32 (c.loTile b tile + s * c.per b tile) ≤ key / c.tn ∧
      key / c.tn < u32 (c.loTile b tile + s * c.per b tile) + c.per b tile ∧
      key / c.tn < c.hiTile b tile := by
  have ht : tile * c.qt < c.len b := by omega
  obtain ⟨hlohi, hhi⟩ := hr.loTile_lt ht
  obtain ⟨hper2, hper⟩ := Device.splitTiles_mem (c.hiTile b tile - c.loTile b tile) c.rows c.ns c.slots c.tn
  have htn := hr.fits.tn_pos
  have hmem (j : ℕ) := mem_splitRange (c.loTile b tile) j hhi
    (hper.trans (max_le_max (Nat.sub_le _ _) le_rfl)) ((hr.fits.products b tile ht).2 s hs)
  simp only [Attends, ctaTiles, hr.keyTiles_eq ht hend, hr.fits.rows_lt, hr.qpos_eq hi]
  constructor
  · rintro ⟨j, off, hj0, hj1, hoff, hkey, hallowed⟩
    obtain ⟨hlo, hup, hjhi⟩ := (hmem j).mp ⟨hj0, hj1⟩
    rw [(hr.key_eq hjhi hoff).1] at hkey
    have hk : key = j * c.tn + off := by exact_mod_cast hkey
    have hdiv : key / c.tn = j := by
      rw [hk, Nat.mul_comm, Nat.mul_add_div htn, Nat.div_eq_of_lt hoff, Nat.add_zero]
    rw [hdiv]
    exact ⟨hallowed, hlo, hup, hjhi⟩
  · rintro ⟨hallowed, hlo, hup, hjhi⟩
    obtain ⟨hj0, hj1⟩ := (hmem (key / c.tn)).mpr ⟨hlo, hup, hjhi⟩
    have hoff : key % c.tn < c.tn := Nat.mod_lt key htn
    refine ⟨key / c.tn, key % c.tn, hj0, hj1, hoff, ?_, hallowed⟩
    rw [(hr.key_eq hjhi hoff).1, Nat.mul_comm, Nat.div_add_mod]

/-- A query's keys are non-negative, whatever overflows. -/
lemma Request.natKey (hr : c.Request b) {i s : ℕ} (hi : tile * c.qt + i < c.len b)
    (hend : c.pos0 b tile + c.qt < 2 ^ 31) {key : ℤ} (h : c.Attends b tile i s key) : 0 ≤ key := by
  have ht : tile * c.qt < c.len b := by omega
  obtain ⟨j, off, -, hj, hoff, hkey, -⟩ := h
  simp only [ctaTiles, splitRange, hr.keyTiles_eq ht hend, Nat.lt_min] at hj
  rw [hkey, (hr.key_eq hj.2 hoff).1]
  exact Int.natCast_nonneg _

/-- A query sees each key of its window in exactly one split, and no other key. -/
def SeesOnce (c : Call) (b tile i : ℕ) (pos : ℤ) : Prop :=
  ExactCover (fun s key => s < c.ns ∧ c.Attends b tile i s key) (c.Visible pos)

/-- Every KV tile of a q tile is in exactly one split. -/
def TilesOnce (c : Call) (b tile : ℕ) : Prop :=
  ∀ j, c.loTile b tile ≤ j → j < c.hiTile b tile → ∃! s, s < c.ns ∧
    u32 (c.loTile b tile + s * c.per b tile) ≤ j ∧
      j < u32 (c.loTile b tile + s * c.per b tile) + c.per b tile ∧ j < c.hiTile b tile

lemma Request.pos_lt (hr : c.Request b) {i : ℕ} (hi : tile * c.qt + i < c.len b) :
    c.pos0 b tile + i < c.seqLens b := by
  have hshort := hr.short
  rw [pos0]
  omega

/-- The queries of a q tile see their keys once if the splits share its KV tiles. -/
lemma Request.seesOnce (hr : c.Request b) {i : ℕ} (hiqt : i < c.qt) (hi : tile * c.qt + i < c.len b)
    (hend : c.pos0 b tile + c.qt < 2 ^ 31)
    (hwin : 0 ≤ c.windowLeft → (c.seqLens b : ℤ) - 1 + c.windowLeft < 2 ^ 31)
    (htiles : c.TilesOnce b tile) : c.SeesOnce b tile i (c.pos0 b tile + i : ℕ) := by
  have hpos := hr.pos_lt hi
  have hmask (key : ℕ) : c.Allowed b (c.pos0 b tile + i : ℕ) key ↔
      c.Visible (c.pos0 b tile + i : ℕ) key :=
    allowed_iff (Int.natCast_nonneg key) (by exact_mod_cast hpos)
      fun h => by have := hwin h; omega
  constructor
  case inside =>
    rintro s key ⟨hs, hatt⟩
    obtain ⟨k, rfl⟩ := Int.eq_ofNat_of_zero_le (hr.natKey hi hend hatt)
    exact (hmask k).mp ((hr.attends_iff hs hi hend).mp hatt).1
  case once =>
    intro key hvis
    obtain ⟨k, rfl⟩ := Int.eq_ofNat_of_zero_le hvis.1
    have hle : k ≤ c.pos0 b tile + i := by exact_mod_cast hvis.2.1
    have hlow : c.lowKey b tile ≤ k := by
      rw [lowKey]
      split
      case isTrue h =>
        have hge := hvis.2.2 h
        push_cast at hge
        omega
      case isFalse => exact Nat.zero_le k
    have hloj : c.loTile b tile ≤ k / c.tn := Nat.div_le_div_right hlow
    have hjhi : k / c.tn < c.hiTile b tile := by
      rw [hiTile, lt_cdiv_iff hr.fits.tn_pos]
      refine (Nat.mul_div_le k c.tn).trans_lt ?_
      rw [Nat.lt_min]
      omega
    obtain ⟨s, ⟨hs, hin⟩, huniq⟩ := htiles (k / c.tn) hloj hjhi
    refine ⟨s, ⟨hs, (hr.attends_iff hs hi hend).mpr ⟨(hmask k).mpr hvis, hin⟩⟩, ?_⟩
    rintro s' ⟨hs', hatt⟩
    exact huniq s' ⟨hs', ((hr.attends_iff hs' hi hend).mp hatt).2⟩

/-- Every KV tile of a q tile has a key that one of its queries sees, so the splits share the KV tiles if the
queries see their keys once. -/
lemma Request.tilesOnce (hr : c.Request b) (ht : tile * c.qt < c.len b)
    (hend : c.pos0 b tile + c.qt < 2 ^ 31)
    (hwin : 0 ≤ c.windowLeft → (c.seqLens b : ℤ) - 1 + c.windowLeft < 2 ^ 31)
    (hsees : ∀ i < c.qt, tile * c.qt + i < c.len b → c.SeesOnce b tile i (c.pos0 b tile + i : ℕ)) :
    c.TilesOnce b tile := by
  intro j hlo hhi
  have htn := hr.fits.tn_pos
  have hshort := hr.short
  have hqt := hr.qt_pos ht
  have hpos0 := hr.pos0_lt ht
  have hjend : j * c.tn < min (c.pos0 b tile + c.qt) (c.seqLens b) := by
    rw [hiTile, lt_cdiv_iff htn, Nat.mul_comm] at hhi
    exact hhi
  have hlowlt : c.lowKey b tile ≤ c.pos0 b tile := by
    rw [lowKey]
    split <;> omega
  have hlowj : c.lowKey b tile < j * c.tn + c.tn := by
    rw [loTile] at hlo
    have hmod := Nat.mod_lt (c.lowKey b tile) htn
    have hdiv := Nat.div_add_mod (c.lowKey b tile) c.tn
    have hmul : c.tn * (c.lowKey b tile / c.tn) ≤ j * c.tn := by
      rw [Nat.mul_comm]
      exact Nat.mul_le_mul_right c.tn hlo
    omega
  -- the first key of the tile in the window, and the first query that may see it
  generalize hk : max (j * c.tn) (c.lowKey b tile) = k
  have hkj : k / c.tn = j := by
    rw [Nat.div_eq_iff htn]
    omega
  generalize hi : max k (c.pos0 b tile) - c.pos0 b tile = i
  rw [Nat.lt_min] at hjend
  have hiqt : i < c.qt := by omega
  have hilen : tile * c.qt + i < c.len b := by
    rw [pos0] at *
    omega
  have hvis : c.Visible (c.pos0 b tile + i : ℕ) k := by
    refine ⟨Int.natCast_nonneg k, by push_cast; omega, fun h => ?_⟩
    have hlow : (c.pos0 b tile : ℤ) - c.windowLeft ≤ c.lowKey b tile := by
      rw [lowKey, if_pos h]
      omega
    push_cast
    omega
  have hpos := hr.pos_lt hilen
  have hmask : c.Allowed b (c.pos0 b tile + i : ℕ) k :=
    (allowed_iff (Int.natCast_nonneg k) (by exact_mod_cast hpos)
      fun h => by have := hwin h; omega).mpr hvis
  obtain ⟨s, ⟨hs, hatt⟩, huniq⟩ := (hsees i hiqt hilen).once k hvis
  have hin := ((hr.attends_iff hs hilen hend).mp hatt).2
  rw [hkj] at hin
  refine ⟨s, ⟨hs, hin⟩, ?_⟩
  rintro s' ⟨hs', hin'⟩
  refine huniq s' ⟨hs', (hr.attends_iff hs' hilen hend).mpr ⟨hmask, ?_⟩⟩
  rw [hkj]
  exact hin'

end Call

end SuffixHybrid.Attn
