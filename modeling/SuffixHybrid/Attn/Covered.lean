import SuffixHybrid.Attn.Window

/-!
# Coverage of a request

`Covered` is what a launch owes a request: its queries see each key of their windows in exactly one split,
no KV tile past its end is read, the merge writes each of its rows once and zeroes the padding once.
`covered_iff` says when. The range of a CTA is clamped, but the mask tests the window by a sum that is not,
so a long sequence with a wide window loses keys (`window_wraps`).
-/

namespace SuffixHybrid.Attn
open Lib

namespace Call
variable {c : Call} {b : ℕ}

/-- What a launch owes a request. -/
structure Covered (c : Call) (b : ℕ) : Prop where
  sees : ∀ r < c.rows, ∀ row < c.m, ∀ tok head, c.owner r row = some (b, tok, head) →
    c.SeesOnce b (tileOf c.nqt r) (row / c.g) (c.seqLens b - c.len b + tok : ℕ)
  reads : ∀ r < c.rows, requestOf c.hkv c.nqt r = b → ∀ s < c.ns, ∀ j, c.Reads r s j →
    j * c.tn < c.seqLens b ∧ j * c.tn / c.pageSize ≤ (c.seqLens b - 1) / c.pageSize
  merge : ExactCover
    (fun (p : ℕ × ℕ) (out : ℕ × ℕ) => p.1 < c.rows ∧ p.2 < c.m ∧ requestOf c.hkv c.nqt p.1 = b ∧
      c.merged p.1 p.2 = some out)
    (fun out => c.qoIndptr b ≤ out.1 ∧ out.1 < c.qoIndptr (b + 1) ∧ out.2 < c.hkv * c.g)
  padding : ExactCover (fun (p : ℕ × ℕ) (out : ℕ × ℕ × ℕ) => c.Zeroes p.1 p.2 out)
    (fun out => c.qoIndptr c.batch ≤ out.1 ∧ out.1 < c.tokens ∧ out.2.1 < c.hkv * c.g ∧ out.2.2 < 8)

/-- When a launch covers a request: the last q tile ends below `2 ^ 31`, and so does the last position
plus the window; of the split candidates of a q tile one costs less than the largest word, or two KV tiles
for each split are enough; and no split whose first KV tile wraps comes back into the range. -/
structure Sound (c : Call) (b : ℕ) : Prop where
  positions : c.seqLens b - c.len b + cdiv (c.len b) c.qt * c.qt < 2 ^ 31
  window : 0 ≤ c.windowLeft → (c.seqLens b : ℤ) - 1 + c.windowLeft < 2 ^ 31
  splits : ∀ tile, tile * c.qt < c.len b → c.hiTile b tile - c.loTile b tile ≤ c.ns * 2 ∨
    ∃ k ∈ [1, 2, 3, 4], candidateCost (c.hiTile b tile - c.loTile b tile) c.rows c.ns c.slots c.tn k < 2 ^ 32 - 1
  starts : ∀ tile, tile * c.qt < c.len b → ∀ s < c.ns, 2 ^ 32 ≤ c.loTile b tile + s * c.per b tile →
    c.loTile b tile + s * c.per b tile - 2 ^ 32 + c.per b tile ≤ c.loTile b tile

/-! ## The keys -/

/-- The splits share the KV tiles of a q tile. -/
lemma Request.tilesOnce_iff (hr : c.Request b) {tile : ℕ} (ht : tile * c.qt < c.len b) :
    c.TilesOnce b tile ↔ (c.hiTile b tile - c.loTile b tile ≤ c.ns * 2 ∨ ∃ k ∈ [1, 2, 3, 4],
        candidateCost (c.hiTile b tile - c.loTile b tile) c.rows c.ns c.slots c.tn k < 2 ^ 32 - 1) ∧
      ∀ s < c.ns, 2 ^ 32 ≤ c.loTile b tile + s * c.per b tile →
        c.loTile b tile + s * c.per b tile - 2 ^ 32 + c.per b tile ≤ c.loTile b tile := by
  obtain ⟨hlt, hhi⟩ := hr.loTile_lt ht
  obtain ⟨hfit, hprod⟩ := hr.fits.products b tile ht
  rw [← Device.le_mul_splitTiles_iff hr.fits.splits hfit]
  exact split_once_iff hlt hhi (Device.splitTiles_mem ..).1 hprod hr.fits.splits

/-- The tile and the index in it of a token. -/
lemma tile_token (c : Call) (tile : ℕ) {i : ℕ} (hi : i < c.qt) : (tile * c.qt + i) / c.qt = tile ∧ (tile * c.qt + i) % c.qt = i := by
  have hqt : 0 < c.qt := Nat.zero_lt_of_lt hi
  rw [Nat.mul_add_mod_of_lt hi, Nat.mul_comm, Nat.mul_add_div hqt, Nat.div_eq_of_lt hi]
  exact ⟨rfl, rfl⟩

/-- A query of a request has a launch row. -/
lemma Request.exists_owner (hr : c.Request b) {tile i : ℕ} (hi : i < c.qt) (hlen : tile * c.qt + i < c.len b) :
    ∃ r < c.rows, ∃ row < c.m, c.owner r row = some (b, tile * c.qt + i, 0) ∧ tileOf c.nqt r = tile ∧
      row / c.g = i := by
  have hl := hr.fits.launch
  have hheads : 0 < c.hkv * c.g := Nat.mul_pos hr.fits.heads hl.group
  obtain ⟨⟨r, row⟩, ⟨hrows, hrow, hown⟩, -⟩ := hl.ownerOf_once hr.index hlen hheads
  obtain ⟨-, hreal, -, htok, -⟩ := (hl.ownerOf_eq hrows hrow).mp hown
  have hidx : row / c.g < c.qt := (Nat.div_lt_iff_lt_mul hl.group).mpr hreal
  have hdiv := c.tile_token (r % c.nqt) hidx
  have hdiv' := c.tile_token tile hi
  rw [htok] at hdiv
  exact ⟨r, hrows, row, hrow, hown, hdiv.1.symm.trans hdiv'.1, hdiv.2.symm.trans hdiv'.2⟩

/-- The position of a token. -/
lemma pos_token (c : Call) (b tile i : ℕ) : c.seqLens b - c.len b + (tile * c.qt + i) = c.pos0 b tile + i := by
  rw [pos0, Nat.add_assoc]

/-- The queries of a covered request see their keys once. -/
lemma Covered.seesOnce (hr : c.Request b) (h : c.Covered b) {tile i : ℕ} (hi : i < c.qt)
    (hlen : tile * c.qt + i < c.len b) : c.SeesOnce b tile i (c.pos0 b tile + i : ℕ) := by
  obtain ⟨r, hrows, row, hrow, hown, rfl, rfl⟩ := hr.exists_owner hi hlen
  have hsees := h.sees r hrows row hrow _ 0 hown
  rwa [pos_token] at hsees

lemma Covered.sound (hr : c.Request b) (hlen : 1 ≤ c.len b) (h : c.Covered b) : c.Sound b := by
  have hfirst : 0 * c.qt < c.len b := by omega
  have hqt : 0 < c.qt := hr.qt_pos hfirst
  have hends : ∀ tile, tile * c.qt < c.len b → c.pos0 b tile + c.qt < 2 ^ 31 := by
    intro tile ht
    by_contra hend
    have hsees := h.seesOnce hr hqt (i := 0) (by rwa [Nat.add_zero])
    have hvis : c.Visible (c.pos0 b tile + 0 : ℕ) (c.pos0 b tile + 0 : ℕ) :=
      ⟨Int.natCast_nonneg _, le_rfl, fun _ => by omega⟩
    obtain ⟨s, ⟨-, j, off, -, hj, -⟩, -⟩ := hsees.once _ hvis
    simp only [ctaTiles, splitRange, hr.keyTiles_overflow ht (Nat.le_of_not_lt hend), Nat.lt_min] at hj
    exact absurd hj.2 (Nat.not_lt_zero j)
  have hwin : 0 ≤ c.windowLeft → (c.seqLens b : ℤ) - 1 + c.windowLeft < 2 ^ 31 := by
    intro h0
    by_contra hwrap
    have hmod : (c.len b - 1) % c.qt < c.qt := Nat.mod_lt _ hqt
    have hlast : (c.len b - 1) / c.qt * c.qt + (c.len b - 1) % c.qt = c.len b - 1 := by
      rw [Nat.mul_comm, Nat.div_add_mod]
    have hi : (c.len b - 1) / c.qt * c.qt + (c.len b - 1) % c.qt < c.len b := by omega
    have hsees := h.seesOnce hr hmod hi
    have hshort := hr.short
    have hpos : c.pos0 b ((c.len b - 1) / c.qt) + (c.len b - 1) % c.qt = c.seqLens b - 1 := by
      rw [← pos_token, hlast]
      omega
    have hqpos := hr.qpos_eq hi
    rw [hpos] at hsees hqpos
    have hvis : c.Visible (c.seqLens b - 1 : ℕ) (c.seqLens b - 1 : ℕ) :=
      ⟨Int.natCast_nonneg _, le_rfl, fun _ => by omega⟩
    obtain ⟨s, ⟨-, j, off, -, -, -, -, hallowed⟩, -⟩ := hsees.once _ hvis
    rw [hqpos] at hallowed
    have hword := hr.word
    exact not_allowed_self (Int.natCast_nonneg _) (by omega) hr.fits.window.2 h0 (by omega) hallowed
  have htiles (tile : ℕ) (ht : tile * c.qt < c.len b) :=
    (hr.tilesOnce_iff ht).mp (hr.tilesOnce ht (hends tile ht) hwin fun i hi hlt => h.seesOnce hr hi hlt)
  refine ⟨?_, hwin, fun tile ht => (htiles tile ht).1, fun tile ht => (htiles tile ht).2⟩
  have hcd : 0 < cdiv (c.len b) c.qt := (cdiv_pos_iff hqt).mpr hlen
  have hlast := hends (cdiv (c.len b) c.qt - 1) (by
    rw [Nat.mul_comm]
    exact (lt_cdiv_iff hqt).mp (by omega))
  have hmul : (cdiv (c.len b) c.qt - 1) * c.qt + c.qt = cdiv (c.len b) c.qt * c.qt := by
    rw [← Nat.succ_mul, Nat.succ_eq_add_one, Nat.sub_add_cancel hcd]
  rw [pos0] at hlast
  omega

lemma Sound.sees (hr : c.Request b) (h : c.Sound b) : ∀ r < c.rows, ∀ row < c.m, ∀ tok head,
    c.owner r row = some (b, tok, head) →
      c.SeesOnce b (tileOf c.nqt r) (row / c.g) (c.seqLens b - c.len b + tok : ℕ) := by
  intro r hrows row hrow tok head hown
  have hl := hr.fits.launch
  obtain ⟨htok, hreal, -, htile, -⟩ := (hl.ownerOf_eq hrows hrow).mp hown
  have hi : row / c.g < c.qt := (Nat.div_lt_iff_lt_mul hl.group).mpr hreal
  rw [← htile] at htok ⊢
  have ht : r % c.nqt * c.qt < c.len b := (Nat.le_add_right _ _).trans_lt htok
  have hend : c.pos0 b (r % c.nqt) + c.qt < 2 ^ 31 := by
    have hlt : r % c.nqt < cdiv (c.len b) c.qt := by
      rw [lt_cdiv_iff (Nat.zero_lt_of_lt hi), Nat.mul_comm]
      exact ht
    have hmul : r % c.nqt * c.qt + c.qt ≤ cdiv (c.len b) c.qt * c.qt := by
      rw [← Nat.succ_mul]
      exact Nat.mul_le_mul_right c.qt hlt
    have hpos := h.positions
    rw [pos0]
    omega
  rw [pos_token]
  exact hr.seesOnce hi htok hend h.window
    ((hr.tilesOnce_iff ht).mpr ⟨h.splits _ ht, h.starts _ ht⟩)

/-! ## The reads, the rows and the padding -/

/-- A KV tile of a q tile starts before the end of the sequence. -/
lemma tile_lt {tile j : ℕ} (htn : 0 < c.tn) (hj : j < (c.keyTiles b tile).2) : j * c.tn < c.seqLens b := by
  simp only [keyTiles] at hj
  rw [lt_cdiv_iff htn, Nat.mul_comm] at hj
  refine hj.trans_le ?_
  split <;> split <;> omega

lemma Request.reads (hr : c.Request b) : ∀ r < c.rows, requestOf c.hkv c.nqt r = b → ∀ s < c.ns, ∀ j,
    c.Reads r s j → j * c.tn < c.seqLens b ∧ j * c.tn / c.pageSize ≤ (c.seqLens b - 1) / c.pageSize := by
  rintro r - rfl s - j ⟨-, -, hj⟩
  simp only [ctaTiles, splitRange, Nat.lt_min] at hj
  have hlt := tile_lt hr.fits.tn_pos hj.2
  exact ⟨hlt, Nat.div_le_div_right (by omega)⟩

lemma Request.merge (hr : c.Request b) : ExactCover
    (fun (p : ℕ × ℕ) (out : ℕ × ℕ) => p.1 < c.rows ∧ p.2 < c.m ∧ requestOf c.hkv c.nqt p.1 = b ∧
      c.merged p.1 p.2 = some out)
    (fun out => c.qoIndptr b ≤ out.1 ∧ out.1 < c.qoIndptr (b + 1) ∧ out.2 < c.hkv * c.g) := by
  have hl := hr.fits.launch
  have hkv := hr.fits.heads
  have hend := hr.fits.ends (b + 1)
  have hlen : c.len b = c.qoIndptr (b + 1) - c.qoIndptr b := rfl
  -- the output row of a token
  have hrow {tok : ℕ} (htok : tok < c.len b) : u32 (c.qoIndptr b + tok) = c.qoIndptr b + tok :=
    u32_of_lt (by omega)
  have hown {r row T head : ℕ} (hb : requestOf c.hkv c.nqt r = b) (hrows : r < c.rows) (hrow' : row < c.m)
      (hm : c.merged r row = some (T, head)) :
      ∃ tok < c.len b, T = c.qoIndptr b + tok ∧ c.owner r row = some (b, tok, head) := by
    obtain ⟨⟨b', tok, head'⟩, hown, he⟩ := Option.map_eq_some_iff.mp hm
    have hb' : b' = b := by
      have hown' : ownerOf c.hkv c.g c.qt c.nqt c.len r row = some (b', tok, head') := hown
      simp only [ownerOf] at hown'
      split at hown'
      · cases hown'
        exact hb
      · cases hown'
    subst hb'
    obtain ⟨htok, -⟩ := (hl.ownerOf_eq hrows hrow').mp hown
    dsimp only at he
    rw [hrow htok] at he
    cases he
    exact ⟨tok, htok, rfl, hown⟩
  constructor
  case inside =>
    rintro ⟨r, row⟩ ⟨T, head⟩ ⟨hrows, hrow', hb, hm⟩
    obtain ⟨tok, htok, rfl, ho⟩ := hown hb hrows hrow' hm
    obtain ⟨-, -, -, -, hhead⟩ := (hl.ownerOf_eq hrows hrow').mp ho
    refine ⟨Nat.le_add_right _ _, by dsimp only; omega, ?_⟩
    rw [← hhead]
    exact place_lt (Nat.mod_lt _ hkv) (Nat.mod_lt _ hl.group)
  case once =>
    rintro ⟨T, head⟩ ⟨hlo, hhi, hhead⟩
    dsimp only at hlo hhi hhead
    have htok : T - c.qoIndptr b < c.len b := by omega
    obtain ⟨⟨r, row⟩, ⟨hrows, hrow', ho⟩, huniq⟩ := hl.ownerOf_once hr.index htok hhead
    have hT : c.qoIndptr b + (T - c.qoIndptr b) = T := Nat.add_sub_cancel' hlo
    refine ⟨(r, row), ⟨hrows, hrow', ?_, ?_⟩, ?_⟩
    · obtain ⟨-, -, hb, -⟩ := (hl.ownerOf_eq hrows hrow').mp ho
      have hbatch : 0 < c.batch := Nat.zero_lt_of_lt hr.index
      rw [requestOf, u32_of_lt, hb]
      refine Nat.lt_of_le_of_lt ?_ hl.rows
      rw [Nat.mul_assoc]
      exact Nat.le_mul_of_pos_left _ hbatch
    · rw [merged, owner, ho]
      simp only [Option.map_some]
      rw [hrow htok, hT]
    · rintro ⟨r', row'⟩ ⟨hrows', hrow'', hb', hm'⟩
      obtain ⟨tok', -, hT', ho'⟩ := hown hb' hrows' hrow'' hm'
      have htok' : tok' = T - c.qoIndptr b := by omega
      exact huniq (r', row') ⟨hrows', hrow'', htok' ▸ ho'⟩

/-- The padding rows in chunks of 8 fit a `u32` with room for the step of the loop. -/
lemma Fits.padding_lt (hc : c.Fits) (htok : 0 < c.tokens) :
    c.tokens * (c.hkv * c.g * 8) < 2 ^ 28 ∧ u32 (c.hkv * c.g * 8) = c.hkv * c.g * 8 := by
  have hout := hc.output
  have hdim : c.tokens * (c.hkv * c.g) * 128 ≤ c.tokens * (c.hkv * c.g) * c.d :=
    Nat.mul_le_mul_left _ hc.dim
  have hassoc : c.tokens * (c.hkv * c.g * 8) = c.tokens * (c.hkv * c.g) * 8 := (Nat.mul_assoc ..).symm
  have hle : c.hkv * c.g ≤ c.tokens * (c.hkv * c.g) := Nat.le_mul_of_pos_left _ htok
  exact ⟨by omega, u32_of_lt (by omega)⟩

lemma item_of_lt (tid k : ℕ) (h : tid + k * 256 < 2 ^ 32) : item tid k = tid + k * 256 := by
  rw [item, u32_of_lt h]

/-- The items of the padding loop do not wrap. -/
lemma Fits.item_eq (hc : c.Fits) (htok : 0 < c.tokens) {tid k : ℕ} (htid : tid < 256)
    (h : ∀ k' ≤ k, c.padRow (item tid k') < c.tokens) :
    item tid k = tid + k * 256 ∧ c.padRow (item tid k) = c.tail + (tid + k * 256) / (c.hkv * c.g * 8) ∧
      tid + k * 256 < 2 ^ 28 := by
  obtain ⟨hlt, hword⟩ := hc.padding_lt htok
  have hheads : 0 < c.hkv * c.g * 8 :=
    Nat.mul_pos (Nat.mul_pos hc.heads hc.launch.group) (by decide)
  have htail : c.tail < 2 ^ 31 := hc.ends _
  -- a padding row comes from an item below the last one
  have hbound {x : ℕ} (hx : x < 2 ^ 28 + 256) (hpad : c.padRow x < c.tokens) :
      c.padRow x = c.tail + x / (c.hkv * c.g * 8) ∧ x < 2 ^ 28 := by
    have hdiv : x / (c.hkv * c.g * 8) ≤ x := Nat.div_le_self _ _
    have hrow : c.padRow x = c.tail + x / (c.hkv * c.g * 8) := by
      rw [padRow, hword]
      exact u32_of_lt (by omega)
    refine ⟨hrow, ?_⟩
    rw [hrow] at hpad
    have hx' : x / (c.hkv * c.g * 8) < c.tokens := by omega
    rw [Nat.div_lt_iff_lt_mul hheads] at hx'
    omega
  -- an item a step after one below the last does not wrap
  have hnext (k : ℕ) (hk : tid + k * 256 < 2 ^ 28 + 256) (hpad : c.padRow (item tid k) < c.tokens) :
      item tid k = tid + k * 256 ∧ c.padRow (item tid k) = c.tail + (tid + k * 256) / (c.hkv * c.g * 8) ∧
        tid + k * 256 < 2 ^ 28 := by
    have hitem := item_of_lt tid k (by omega)
    rw [hitem] at hpad ⊢
    exact ⟨rfl, hbound hk hpad⟩
  induction k with
  | zero =>
    have h0 : tid + 0 * 256 < 2 ^ 28 + 256 := by omega
    exact hnext 0 h0 (h 0 le_rfl)
  | succ k ih =>
    obtain ⟨-, -, hprev⟩ := ih fun k' hk' => h k' (Nat.le_succ_of_le hk')
    have hk : tid + (k + 1) * 256 < 2 ^ 28 + 256 := by
      rw [Nat.succ_mul, ← Nat.add_assoc]
      exact Nat.add_lt_add_right hprev 256
    exact hnext (k + 1) hk (h (k + 1) le_rfl)

lemma Request.padding (hr : c.Request b) (hlen : 1 ≤ c.len b) :
    ExactCover (fun (p : ℕ × ℕ) (out : ℕ × ℕ × ℕ) => c.Zeroes p.1 p.2 out)
      (fun out => c.qoIndptr c.batch ≤ out.1 ∧ out.1 < c.tokens ∧ out.2.1 < c.hkv * c.g ∧ out.2.2 < 8) := by
  have hc := hr.fits
  have hl := hc.launch
  have hnqt : 0 < c.nqt := by
    refine Nat.pos_of_ne_zero fun h => ?_
    have hle := hl.len_le b
    rw [h, Nat.mul_zero] at hle
    omega
  have hper : 0 < c.hkv * c.nqt := Nat.mul_pos hc.heads hnqt
  have hheads : 0 < c.hkv * c.g := Nat.mul_pos hc.heads hl.group
  have hheads32 : u32 (c.hkv * c.g) = c.hkv * c.g := u32_of_lt hl.heads
  have htail : c.tail = c.qoIndptr c.batch := by
    have hbatch : 0 < c.batch := Nat.zero_lt_of_lt hr.index
    have hle : c.hkv * c.nqt ≤ c.batch * (c.hkv * c.nqt) := Nat.le_mul_of_pos_left _ hbatch
    have hlt : c.hkv * c.nqt < 2 ^ 32 := by
      refine hle.trans_lt ?_
      rw [← Nat.mul_assoc]
      exact hl.rows
    rw [tail, hc.rows_lt, u32_of_lt hlt, rows, Nat.mul_assoc, Nat.mul_div_cancel _ hper]
  constructor
  case inside =>
    rintro ⟨tid, k⟩ out ⟨htid, hpad, rfl⟩
    have htok : 0 < c.tokens := Nat.zero_lt_of_lt (hpad k le_rfl)
    obtain ⟨-, hrow, -⟩ := hc.item_eq htok htid hpad
    refine ⟨?_, hpad k le_rfl, ?_, Nat.mod_lt _ (by decide)⟩
    · dsimp only
      rw [hrow, htail]
      exact Nat.le_add_right _ _
    · rw [hheads32]
      exact Nat.mod_lt _ hheads
  case once =>
    rintro ⟨T, head, chunk⟩ ⟨hlo, hhi, hhead, hchunk⟩
    dsimp only at hlo hhi hhead hchunk
    have htok : 0 < c.tokens := Nat.zero_lt_of_lt hhi
    generalize hx : ((T - c.tail) * (c.hkv * c.g) + head) * 8 + chunk = x
    obtain ⟨hdT, hdh, hdc⟩ := (digits_iff hhead hchunk).mpr hx.symm
    have hxk : x % 256 + x / 256 * 256 = x := by rw [Nat.mul_comm, Nat.mod_add_div]
    obtain ⟨hlt28, hword⟩ := hc.padding_lt htok
    have hT : T - c.tail < c.tokens := by omega
    have hx28 : x < 2 ^ 28 := by
      have hxT : x < c.tokens * (c.hkv * c.g) * 8 := hx ▸ place_lt (place_lt hT hhead) hchunk
      rw [Nat.mul_assoc] at hxT
      omega
    have htok28 : c.tokens < 2 ^ 28 :=
      (Nat.le_mul_of_pos_right _ (Nat.mul_pos hheads (by decide))).trans_lt hlt28
    have hpads : ∀ k' ≤ x / 256, c.padRow (item (x % 256) k') < c.tokens := by
      intro k' hk'
      have hle : x % 256 + k' * 256 ≤ x := by omega
      have hdiv : (x % 256 + k' * 256) / (c.hkv * c.g * 8) ≤ T - c.tail := hdT ▸ Nat.div_le_div_right hle
      have hends := hc.ends (u32 c.rows / u32 (c.hkv * c.nqt))
      have htail31 : c.tail < 2 ^ 31 := hends
      rw [item_of_lt _ _ (by omega), padRow, hword, u32_of_lt (by omega)]
      omega
    have hout {tid k : ℕ} (htid : tid < 256) (hpad : ∀ k' ≤ k, c.padRow (item tid k') < c.tokens) :
        (T, head, chunk) = (c.padRow (item tid k), item tid k / 8 % u32 (c.hkv * c.g), item tid k % 8) ↔
          tid + k * 256 = x := by
      obtain ⟨hitem, hrow, -⟩ := hc.item_eq htok htid hpad
      rw [hrow, hitem, hheads32, Prod.mk.injEq, Prod.mk.injEq, ← hx, ← digits_iff hhead hchunk]
      constructor
      · rintro ⟨hrowT, rfl, rfl⟩
        exact ⟨by omega, rfl, rfl⟩
      · rintro ⟨hrowT, rfl, rfl⟩
        exact ⟨by omega, rfl, rfl⟩
    have htid : x % 256 < 256 := Nat.mod_lt _ (by decide)
    refine ⟨(x % 256, x / 256), ⟨htid, hpads, (hout htid hpads).mpr hxk⟩, ?_⟩
    rintro ⟨tid, k⟩ ⟨htid', hpad', ho⟩
    have htk := (hout htid' hpad').mp ho
    dsimp only at htk htid'
    exact Prod.ext (by dsimp only; omega) (by dsimp only; omega)

/-! ## The coverage -/

/-- A launch covers a request exactly if no position, window, split or first tile of it wraps. -/
theorem covered_iff (hr : c.Request b) (hlen : 1 ≤ c.len b) : c.Covered b ↔ c.Sound b :=
  ⟨fun h => h.sound hr hlen, fun h => ⟨h.sees hr, hr.reads, hr.merge, hr.padding hlen⟩⟩

/-- A launch for one request: one query after four keys, one head, one split. -/
def tiny (windowLeft : ℤ) : Call where
  batch := 1
  hkv := 1
  g := 1
  qt := 1
  nqt := 1
  m := 16
  d := 128
  tn := 64
  ns := 1
  slots := 188
  pageSize := 64
  tokens := 1
  windowLeft := windowLeft
  seqLens := fun _ => 5
  qoIndptr := fun b => min b 1

/-- The only q tile of the request. -/
lemma tiny_tile {windowLeft : ℤ} {b tile : ℕ} (h : tile * (tiny windowLeft).qt < (tiny windowLeft).len b) :
    b = 0 ∧ tile = 0 := by
  simp only [tiny, len] at h
  omega

lemma tiny_request (windowLeft : ℤ) (hlo : -1 ≤ windowLeft) (hhi : windowLeft < 2 ^ 31)
    (hlow : (tiny windowLeft).lowKey 0 0 = 0) : (tiny windowLeft).Request 0 := by
  have hn : (tiny windowLeft).hiTile 0 0 - (tiny windowLeft).loTile 0 0 = 1 := by
    rw [loTile, hlow]
    simp [tiny, hiTile, pos0, len, cdiv]
  have hlen (b : ℕ) : (tiny windowLeft).len b ≤ 1 := by
    simp only [tiny, len]
    omega
  have hlaunch : Launch 1 1 1 1 1 16 (tiny windowLeft).len :=
    ⟨by decide, by decide, by decide, by decide, by decide, hlen⟩
  have hends (b : ℕ) : min b 1 < 2 ^ 31 := by omega
  refine ⟨⟨hlaunch, Nat.one_pos, by simp [tiny], by simp [tiny], Nat.one_pos, le_rfl, by simp [tiny],
    ⟨(by decide : (-2 ^ 31 : ℤ) ≤ -1).trans hlo, hhi⟩, hends, fun b tile ht => ?_⟩, Nat.one_pos,
    by simp [tiny, len], by simp [tiny]⟩
  obtain ⟨rfl, rfl⟩ := tiny_tile ht
  rw [hn]
  refine ⟨?_, fun s hs => ?_⟩
  · simp only [tiny, rows]
    decide
  · have hs0 : s = 0 := Nat.lt_one_iff.mp hs
    rw [hs0, Nat.zero_mul]
    decide

/-- The request is covered without a window. -/
theorem covered_iff_tiny : (tiny (-1)).Covered 0 := by
  have hsplits : (tiny (-1)).hiTile 0 0 - (tiny (-1)).loTile 0 0 ≤ 2 := by decide
  refine (covered_iff (tiny_request (-1) (by decide) (by decide) rfl) (by decide)).mpr
    ⟨by decide, fun h => absurd h (by decide), fun tile ht => ?_, fun tile ht s hs hwrap => ?_⟩
  · obtain ⟨-, rfl⟩ := tiny_tile ht
    exact .inl hsplits
  · obtain ⟨-, rfl⟩ := tiny_tile ht
    have hs0 : s = 0 := by
      simp only [tiny] at hs
      omega
    rw [hs0, Nat.zero_mul] at hwrap
    exact absurd hwrap (by decide)

/-- With the widest window the request's last key is masked. -/
theorem window_wraps : (tiny (2 ^ 31 - 1)).Request 0 ∧ 1 ≤ (tiny (2 ^ 31 - 1)).len 0 ∧
    ¬ (tiny (2 ^ 31 - 1)).Covered 0 := by
  have hr := tiny_request (2 ^ 31 - 1) (by decide) (by decide) (by decide)
  refine ⟨hr, by decide, fun h => ?_⟩
  have hwin := (h.sound hr (by decide)).window (by decide)
  exact absurd hwin (by decide)

end Call

end SuffixHybrid.Attn
