import SuffixHybrid.Lib.Best
import SuffixHybrid.Lib.Grid
import SuffixHybrid.Lib.Word

/-!
# The rows and splits of an attention launch

A launch row is a request, a KV head and a q tile; a row of its tile is a token of the q tile and a q head
of the group. `ownerOf` computes the token and the head of a row as both kernels do, and `ownerOf_once`
says that no query is lost or computed twice. The indices are `u32`.
-/

namespace SuffixHybrid.Attn
open Lib

/-- The request of a launch row. -/
def requestOf (hkv nqt r : ℕ) : ℕ := r / u32 (hkv * nqt)

/-- The KV head of a launch row. -/
def headOf (hkv nqt r : ℕ) : ℕ := r / nqt % hkv

/-- The q tile of a launch row. -/
def tileOf (nqt r : ℕ) : ℕ := r % nqt

/-- The request, the token and the q head of a row of a launch row, if it has one; `len` is the number of
query tokens of a request. -/
def ownerOf (hkv g qt nqt : ℕ) (len : ℕ → ℕ) (r row : ℕ) : Option (ℕ × ℕ × ℕ) :=
  let b := requestOf hkv nqt r
  let first := u32 (tileOf nqt r * qt)
  let tok := u32 (first + row / g)
  if first < len b ∧ row < u32 (qt * g) ∧ tok < len b then
    some (b, tok, u32 (u32 (headOf hkv nqt r * g) + row % g))
  else none

/-- The sizes of a launch fit the `u32` arguments, and the q tiles hold every request. -/
structure Launch (batch hkv g qt nqt m : ℕ) (len : ℕ → ℕ) : Prop where
  rows : batch * hkv * nqt < 2 ^ 32
  heads : hkv * g < 2 ^ 32
  tokens : qt * nqt + m < 2 ^ 32
  tile : qt * g ≤ m
  group : 0 < g
  len_le : ∀ b, len b ≤ qt * nqt

variable {batch hkv g qt nqt m : ℕ} {len : ℕ → ℕ}

/-- What a row owns, without the words. -/
lemma Launch.ownerOf_eq (hl : Launch batch hkv g qt nqt m len) {r row b tok head : ℕ}
    (hr : r < batch * hkv * nqt) (hrow : row < m) :
    ownerOf hkv g qt nqt len r row = some (b, tok, head) ↔
      tok < len b ∧ row < qt * g ∧ r / (hkv * nqt) = b ∧ r % nqt * qt + row / g = tok ∧
        r / nqt % hkv * g + row % g = head := by
  have hprod : 0 < batch * hkv * nqt := Nat.zero_lt_of_lt hr
  have hbatch : 0 < batch := Nat.pos_of_mul_pos_right (Nat.pos_of_mul_pos_right hprod)
  have hkv0 : 0 < hkv := Nat.pos_of_mul_pos_left (Nat.pos_of_mul_pos_right hprod)
  have hnqt : 0 < nqt := Nat.pos_of_mul_pos_left hprod
  have hper : u32 (hkv * nqt) = hkv * nqt := by
    refine u32_of_lt (Nat.lt_of_le_of_lt ?_ hl.rows)
    rw [Nat.mul_assoc]
    exact Nat.le_mul_of_pos_left _ hbatch
  have htile : r % nqt * qt ≤ qt * nqt := by
    rw [Nat.mul_comm qt]
    exact Nat.mul_le_mul_right qt (Nat.mod_lt r hnqt).le
  have hfirst : u32 (r % nqt * qt) = r % nqt * qt := u32_of_lt (by have := hl.tokens; omega)
  have hi : row / g ≤ row := Nat.div_le_self row g
  have htok : u32 (r % nqt * qt + row / g) = r % nqt * qt + row / g :=
    u32_of_lt (by have := hl.tokens; omega)
  have hreal : u32 (qt * g) = qt * g := u32_of_lt (by have := hl.tokens; have := hl.tile; omega)
  have hlast : r / nqt % hkv * g + row % g < hkv * g :=
    place_lt (Nat.mod_lt _ hkv0) (Nat.mod_lt row hl.group)
  have hhead : u32 (r / nqt % hkv * g) = r / nqt % hkv * g :=
    u32_of_lt (by have := hl.heads; omega)
  have hsum : u32 (r / nqt % hkv * g + row % g) = r / nqt % hkv * g + row % g :=
    u32_of_lt (hlast.trans hl.heads)
  simp only [ownerOf, requestOf, headOf, tileOf, hper, hfirst, htok, hreal, hhead, hsum]
  constructor
  · intro h
    split at h
    case isTrue hvalid =>
      cases h
      exact ⟨hvalid.2.2, hvalid.2.1, rfl, rfl, rfl⟩
    case isFalse => cases h
  · rintro ⟨htoklen, hrowlt, rfl, rfl, rfl⟩
    exact if_pos ⟨(Nat.le_add_right _ _).trans_lt htoklen, hrowlt, htoklen⟩

/-- Every query of the batch is the row of exactly one launch row and row of its tile. -/
theorem Launch.ownerOf_once (hl : Launch batch hkv g qt nqt m len) {b tok head : ℕ} (hb : b < batch)
    (htok : tok < len b) (hhead : head < hkv * g) :
    ∃! p : ℕ × ℕ, p.1 < batch * hkv * nqt ∧ p.2 < m ∧
      ownerOf hkv g qt nqt len p.1 p.2 = some (b, tok, head) := by
  have hlen : tok < qt * nqt := htok.trans_le (hl.len_le b)
  have hqt : 0 < qt := Nat.pos_of_mul_pos_right (Nat.zero_lt_of_lt hlen)
  have hh : head / g < hkv := (Nat.div_lt_iff_lt_mul hl.group).mpr hhead
  have hq : tok / qt < nqt := (Nat.div_lt_iff_lt_mul hqt).mpr (by rwa [Nat.mul_comm])
  have hgg : head % g < g := Nat.mod_lt head hl.group
  have hi : tok % qt < qt := Nat.mod_lt tok hqt
  have hr : (b * hkv + head / g) * nqt + tok / qt < batch * hkv * nqt := place_lt (place_lt hb hh) hq
  have hrow : tok % qt * g + head % g < qt * g := place_lt hi hgg
  have htokq : tok / qt * qt + tok % qt = tok := by rw [Nat.mul_comm, Nat.div_add_mod]
  have hheadg : head / g * g + head % g = head := by rw [Nat.mul_comm, Nat.div_add_mod]
  refine ⟨((b * hkv + head / g) * nqt + tok / qt, tok % qt * g + head % g), ⟨hr, ?_, ?_⟩, ?_⟩
  · exact hrow.trans_le hl.tile
  · obtain ⟨hdb, hdh, hdq⟩ := (digits_iff hh hq).mpr rfl
    have hdi : (tok % qt * g + head % g) / g = tok % qt := by
      rw [Nat.mul_comm, Nat.mul_add_div hl.group, Nat.div_eq_of_lt hgg, Nat.add_zero]
    rw [hl.ownerOf_eq hr (hrow.trans_le hl.tile), hdb, hdh, hdq, hdi, Nat.mul_add_mod_of_lt hgg]
    exact ⟨htok, hrow, rfl, htokq, hheadg⟩
  · rintro ⟨r, row⟩ ⟨hr', hrow', hown⟩
    dsimp only at hr' hrow' hown
    obtain ⟨-, hrowlt, hdb, hdt, hdh⟩ := (hl.ownerOf_eq hr' hrow').mp hown
    have hnqt : 0 < nqt := Nat.zero_lt_of_lt hq
    have hkv0 : 0 < hkv := Nat.zero_lt_of_lt hh
    have hrowi : row / g < qt := (Nat.div_lt_iff_lt_mul hl.group).mpr hrowlt
    have hrowg : row % g < g := Nat.mod_lt row hl.group
    have htq : r % nqt = tok / qt ∧ row / g = tok % qt := by
      rw [← hdt, Nat.mul_add_mod_of_lt hrowi, Nat.mul_comm, Nat.mul_add_div hqt, Nat.div_eq_of_lt hrowi]
      exact ⟨rfl, rfl⟩
    have hhg : r / nqt % hkv = head / g ∧ row % g = head % g := by
      rw [← hdh, Nat.mul_add_mod_of_lt hrowg, Nat.mul_comm, Nat.mul_add_div hl.group,
        Nat.div_eq_of_lt hrowg]
      exact ⟨rfl, rfl⟩
    have hrdiv := (digits_iff hh hq).mp ⟨hdb, hhg.1, htq.1⟩
    have hrowdiv : row / g * g + row % g = row := by rw [Nat.mul_comm, Nat.div_add_mod]
    rw [hrdiv, ← htq.2, ← hhg.2, hrowdiv]

/-!
## Splits

`split_tiles` cuts the KV tiles of a request into splits of equal length. There are two copies, one on
`usize` for the host and one on `u32` for the device; both are `search` with their own word size. On
inputs that fill no word, `splitTiles_spec` says what the choice is and that the copies agree. The search
starts from the largest word as the best cost, so a request all of whose candidates cost exactly that
is left with the smallest split (`splitTiles_at_limit`).
-/

/-- `MIN_TILES_PER_SPLIT`. -/
def MIN_TILES_PER_SPLIT : ℕ := 2

/-- `SPLIT_COST_TOKENS`. -/
def SPLIT_COST_TOKENS : ℕ := 64

/-! ## The search -/

/-- The tiles of each of `s` splits. -/
def perOf (n_t s : ℕ) : ℕ := max (cdiv n_t s) MIN_TILES_PER_SPLIT

section
variable (wrap : ℕ → ℕ)

/-- The waves of the splits times the tiles and the fixed cost of one. -/
def costOf (n_t rows slots tn per : ℕ) : ℕ :=
  wrap (cdiv (wrap (rows * cdiv n_t per)) slots * wrap (per + cdiv SPLIT_COST_TOKENS tn))

/-- The loop over the four candidates, with the sentinel `top` as the first best cost. -/
def search (top : ℕ) (splits : ℕ → ℕ) (n_t rows slots tn : ℕ) : ℕ × ℕ :=
  cheapest (fun k => costOf wrap n_t rows slots tn (perOf n_t (splits k)))
    (fun k => perOf n_t (splits k)) [1, 2, 3, 4] (top, MIN_TILES_PER_SPLIT)

/-- The splits of a candidate: the most that fit `k` full waves, and the grid cap. -/
def splitsAt (rows ns slots k : ℕ) : ℕ :=
  if k = 4 then ns else max 1 (min (wrap (k * slots) / rows) ns)

end

/-- `split_tiles` of the host. -/
def splitTiles (n_t rows ns slots tn : ℕ) : ℕ :=
  (search (· % 2 ^ 64) (2 ^ 64 - 1) (splitsAt (· % 2 ^ 64) rows ns slots) n_t rows slots tn).2

/-- The splits of a candidate on the device, which clamps the grid cap too. -/
def Device.splitsAt (rows ns slots k : ℕ) : ℕ :=
  max 1 (min (if k = 4 then ns else k * slots % 2 ^ 32 / rows) ns)

/-- `split_tiles` of the device. -/
def Device.splitTiles (n_t rows ns slots tn : ℕ) : ℕ :=
  (search (· % 2 ^ 32) (2 ^ 32 - 1) (Device.splitsAt rows ns slots) n_t rows slots tn).2

/-! ## The choice -/

/-- The tiles per split of a candidate. -/
def candidatePer (n_t rows ns slots k : ℕ) : ℕ := perOf n_t (splitsAt id rows ns slots k)

/-- The cost of a candidate. -/
def candidateCost (n_t rows ns slots tn k : ℕ) : ℕ :=
  costOf id n_t rows slots tn (candidatePer n_t rows ns slots k)

/-- The products that the search forms. -/
def products (n_t rows ns slots tn : ℕ) : List ℕ :=
  [1, 2, 3].map (· * slots) ++
    [1, 2, 3, 4].map (fun k => rows * cdiv n_t (candidatePer n_t rows ns slots k)) ++
    [1, 2, 3, 4].map (candidateCost n_t rows ns slots tn)

/-- What `split_tiles` chooses. -/
structure SplitChoice (n_t rows ns slots tn per : ℕ) : Prop where
  two_le : 2 ≤ per
  count : cdiv n_t per ≤ ns
  cover : ExactCover (fun s t => s < ns ∧ s * per ≤ t ∧ t < min ((s + 1) * per) n_t) (· < n_t)
  first : ∃ k, FirstLeast (candidateCost n_t rows ns slots tn) [1, 2, 3, 4] k ∧
    per = candidatePer n_t rows ns slots k
  oneWave : rows * ns ≤ slots → rows * cdiv n_t per ≤ slots

lemma perOf_pos (n_t s : ℕ) : 0 < perOf n_t s := Nat.lt_of_lt_of_le Nat.two_pos (le_max_right _ _)

lemma splitsAt_mem (wrap : ℕ → ℕ) (rows slots k : ℕ) {ns : ℕ} (hns : 0 < ns) :
    0 < splitsAt wrap rows ns slots k ∧ splitsAt wrap rows ns slots k ≤ ns := by
  rw [splitsAt]
  split
  · exact ⟨hns, le_rfl⟩
  · omega

/-- The splits of a candidate hold all tiles. -/
lemma cdiv_perOf_le {n_t s ns : ℕ} (hs : 0 < s) (hle : s ≤ ns) : cdiv n_t (perOf n_t s) ≤ ns :=
  (cdiv_le_of_share hs (perOf_pos n_t s) (le_max_left _ _)).trans hle

/-- The device's clamp of the grid cap changes nothing. -/
lemma Device.splitsAt_eq {rows ns slots : ℕ} (hns : 0 < ns) (k : ℕ) :
    Device.splitsAt rows ns slots k = Attn.splitsAt (· % 2 ^ 32) rows ns slots k := by
  rw [Device.splitsAt, Attn.splitsAt]
  split
  · omega
  · rfl

/-- Products below the word size are the exact ones. -/
lemma costOf_eq {wrap : ℕ → ℕ} {M n_t rows slots tn per : ℕ} (hw : ∀ n < M, wrap n = n)
    (hctas : rows * cdiv n_t per < M) (hcost : costOf id n_t rows slots tn per < M) :
    costOf wrap n_t rows slots tn per = costOf id n_t rows slots tn per := by
  simp only [costOf, id_eq] at hcost ⊢
  rw [hw _ hctas]
  obtain hz | hpos := Nat.eq_zero_or_pos (cdiv (rows * cdiv n_t per) slots)
  · rw [hz, Nat.zero_mul, Nat.zero_mul]
    exact hw 0 (Nat.zero_lt_of_lt hctas)
  · rw [hw (per + cdiv SPLIT_COST_TOKENS tn) ((Nat.le_mul_of_pos_left _ hpos).trans_lt hcost), hw _ hcost]

/-- Without overflow the search is over the exact candidates. -/
lemma search_eq {wrap : ℕ → ℕ} {M n_t rows ns slots tn : ℕ} (hw : ∀ n < M, wrap n = n)
    (hfit : ∀ p ∈ products n_t rows ns slots tn, p < M) (top : ℕ) :
    search wrap top (splitsAt wrap rows ns slots) n_t rows slots tn =
      cheapest (candidateCost n_t rows ns slots tn) (candidatePer n_t rows ns slots) [1, 2, 3, 4]
        (top, MIN_TILES_PER_SPLIT) := by
  have hsplits : ∀ k ∈ [1, 2, 3, 4], splitsAt wrap rows ns slots k = splitsAt id rows ns slots k := by
    intro k hk
    simp only [splitsAt, id_eq]
    split
    case isTrue => rfl
    case isFalse h4 =>
      rw [hw (k * slots)]
      refine hfit _ (List.mem_append_left _ (List.mem_append_left _ (List.mem_map.mpr ⟨k, ?_, rfl⟩)))
      simp only [List.mem_cons, List.not_mem_nil, or_false] at hk ⊢
      omega
  have hctas : ∀ k ∈ [1, 2, 3, 4], rows * cdiv n_t (candidatePer n_t rows ns slots k) < M :=
    fun k hk => hfit _ (List.mem_append_left _ (List.mem_append_right _ (List.mem_map.mpr ⟨k, hk, rfl⟩)))
  have hcost : ∀ k ∈ [1, 2, 3, 4], candidateCost n_t rows ns slots tn k < M :=
    fun k hk => hfit _ (List.mem_append_right _ (List.mem_map.mpr ⟨k, hk, rfl⟩))
  refine cheapest_congr (fun k hk => ?_) (fun k hk => ?_) _
  · rw [hsplits k hk]
    exact costOf_eq hw (hctas k hk) (hcost k hk)
  · rw [hsplits k hk]
    rfl

/-- A candidate cheaper than the sentinel is chosen, the first of the cheapest. -/
lemma search_choice {wrap : ℕ → ℕ} {M top n_t rows ns slots tn : ℕ} (hns : 0 < ns)
    (hw : ∀ n < M, wrap n = n) (hfit : ∀ p ∈ products n_t rows ns slots tn, p < M)
    (hleast : ∃ k ∈ [1, 2, 3, 4], candidateCost n_t rows ns slots tn k < top) :
    SplitChoice n_t rows ns slots tn
      (search wrap top (splitsAt wrap rows ns slots) n_t rows slots tn).2 := by
  obtain ⟨k, hfirst, he⟩ := cheapest_spec (candidatePer n_t rows ns slots)
    (top, MIN_TILES_PER_SPLIT) hleast
  rw [search_eq hw hfit, he]
  dsimp only
  obtain ⟨hpos, hle⟩ := splitsAt_mem id rows slots k hns
  have hper : 0 < candidatePer n_t rows ns slots k := perOf_pos _ _
  have hcount : cdiv n_t (candidatePer n_t rows ns slots k) ≤ ns := cdiv_perOf_le hpos hle
  refine ⟨le_max_right _ _, hcount, ?_, ⟨k, hfirst, rfl⟩, fun h => ?_⟩
  · have hcover := exactCover_chunks (n := n_t) hper
      (by rw [Nat.mul_comm]; exact (cdiv_le_iff hper).mp hcount)
    simpa only [Nat.succ_mul] using hcover
  · exact (Nat.mul_le_mul_left rows hcount).trans h

/-- `split_tiles` covers every tile, takes the first of the cheapest candidates and stays in one wave if
the grid does; the device chooses the same. -/
theorem splitTiles_spec (n_t rows ns slots tn : ℕ) (hns : 0 < ns)
    (hfit : ∀ p ∈ products n_t rows ns slots tn, p < 2 ^ 64)
    (hleast : ∃ k ∈ [1, 2, 3, 4], candidateCost n_t rows ns slots tn k < 2 ^ 64 - 1) :
    SplitChoice n_t rows ns slots tn (splitTiles n_t rows ns slots tn) ∧
      ((∀ p ∈ products n_t rows ns slots tn, p < 2 ^ 32) →
        (∃ k ∈ [1, 2, 3, 4], candidateCost n_t rows ns slots tn k < 2 ^ 32 - 1) →
        Device.splitTiles n_t rows ns slots tn = splitTiles n_t rows ns slots tn) := by
  refine ⟨search_choice hns (fun n h => Nat.mod_eq_of_lt h) hfit hleast, fun hfit32 hleast32 => ?_⟩
  have hdev : Device.splitsAt rows ns slots = splitsAt (· % 2 ^ 32) rows ns slots :=
    funext fun k => Device.splitsAt_eq hns k
  rw [Device.splitTiles, splitTiles, hdev, search_eq (fun n h => Nat.mod_eq_of_lt h) hfit32,
    search_eq (fun n h => Nat.mod_eq_of_lt h) hfit]
  obtain ⟨k, hfirst, he⟩ := cheapest_spec (candidatePer n_t rows ns slots)
    (2 ^ 32 - 1, MIN_TILES_PER_SPLIT) hleast32
  obtain ⟨k', hfirst', he'⟩ := cheapest_spec (candidatePer n_t rows ns slots)
    (2 ^ 64 - 1, MIN_TILES_PER_SPLIT) hleast
  rw [he, he', hfirst.unique hfirst']

lemma search_mem (wrap : ℕ → ℕ) (top : ℕ) (splits : ℕ → ℕ) (n_t rows slots tn : ℕ) :
    (search wrap top splits n_t rows slots tn).2 = MIN_TILES_PER_SPLIT ∨
      ∃ k, (search wrap top splits n_t rows slots tn).2 = perOf n_t (splits k) := by
  rw [search]
  by_cases h : ∃ k ∈ [1, 2, 3, 4], costOf wrap n_t rows slots tn (perOf n_t (splits k)) < top
  · obtain ⟨k, -, he⟩ := cheapest_spec (fun k => perOf n_t (splits k)) (top, MIN_TILES_PER_SPLIT) h
    rw [he]
    exact .inr ⟨k, rfl⟩
  · rw [cheapest_stays fun k hk => not_lt.mp fun hlt => h ⟨k, hk, hlt⟩]
    exact .inl rfl

/-- The device's splits have at least two tiles, and no more than there are. -/
lemma Device.splitTiles_mem (n_t rows ns slots tn : ℕ) :
    2 ≤ Device.splitTiles n_t rows ns slots tn ∧ Device.splitTiles n_t rows ns slots tn ≤ max n_t 2 := by
  rw [Device.splitTiles]
  obtain h | ⟨k, h⟩ := search_mem (· % 2 ^ 32) (2 ^ 32 - 1) (Device.splitsAt rows ns slots) n_t rows slots tn
  · rw [h]
    exact ⟨le_rfl, le_max_right _ _⟩
  · rw [h]
    have hs : 0 < Device.splitsAt rows ns slots k := Nat.lt_of_lt_of_le Nat.one_pos (le_max_left _ _)
    have hle : cdiv n_t (Device.splitsAt rows ns slots k) ≤ n_t := by
      rw [cdiv_le_iff hs]
      exact Nat.le_mul_of_pos_left n_t hs
    exact ⟨le_max_right _ _, max_le_max hle le_rfl⟩

/-- The device's splits hold all tiles unless every candidate costs the largest word and two tiles for
each split are not enough. -/
lemma Device.le_mul_splitTiles_iff {n_t rows ns slots tn : ℕ} (hns : 0 < ns)
    (hfit : ∀ p ∈ products n_t rows ns slots tn, p < 2 ^ 32) :
    n_t ≤ ns * Device.splitTiles n_t rows ns slots tn ↔
      n_t ≤ ns * 2 ∨ ∃ k ∈ [1, 2, 3, 4], candidateCost n_t rows ns slots tn k < 2 ^ 32 - 1 := by
  have hdev : Device.splitsAt rows ns slots = Attn.splitsAt (· % 2 ^ 32) rows ns slots :=
    funext fun k => Device.splitsAt_eq hns k
  by_cases h : ∃ k ∈ [1, 2, 3, 4], candidateCost n_t rows ns slots tn k < 2 ^ 32 - 1
  · have hchoice := search_choice hns (fun n hn => Nat.mod_eq_of_lt hn) hfit h
    have hcount := hchoice.count
    rw [cdiv_le_iff (Nat.lt_of_lt_of_le Nat.two_pos hchoice.two_le), Nat.mul_comm] at hcount
    rw [Device.splitTiles, hdev]
    exact iff_of_true hcount (.inr h)
  · have hstay : cheapest (candidateCost n_t rows ns slots tn) (candidatePer n_t rows ns slots)
        [1, 2, 3, 4] (2 ^ 32 - 1, MIN_TILES_PER_SPLIT) = (2 ^ 32 - 1, MIN_TILES_PER_SPLIT) :=
      cheapest_stays fun k hk => not_lt.mp fun hlt => h ⟨k, hk, hlt⟩
    rw [Device.splitTiles, hdev, search_eq (fun n hn => Nat.mod_eq_of_lt hn) hfit, hstay]
    exact ⟨fun hle => .inl hle, fun hor => hor.resolve_right h⟩

/-- 258 tiles of 16 tokens with 16 launch rows on 376 slots: one wave of 22 splits. -/
theorem splitTiles_spec_wave :
    SplitChoice 258 16 23 376 16 12 ∧ Device.splitTiles 258 16 23 376 16 = 12 := by
  obtain ⟨hchoice, hdev⟩ := splitTiles_spec 258 16 23 376 16 (by decide) (by decide) (by decide)
  exact ⟨hchoice, hdev (by decide) (by decide)⟩

/-- A single candidate that costs the largest word: the host drops tiles, and the device, which meets its
own largest word first, drops them where the host does not. -/
theorem splitTiles_at_limit :
    ¬ cdiv (2 ^ 64 - 2) (splitTiles (2 ^ 64 - 2) 1 1 1 64) ≤ 1 ∧
      (∀ p ∈ products (2 ^ 32 - 2) 1 1 1 64, p < 2 ^ 32) ∧
      Device.splitTiles (2 ^ 32 - 2) 1 1 1 64 ≠ splitTiles (2 ^ 32 - 2) 1 1 1 64 := by
  decide

end SuffixHybrid.Attn
