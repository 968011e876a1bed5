import SuffixHybrid.Dsa.Items
import SuffixHybrid.Lib.Except

/-!
# The indexer kernel

What the blocks of `dsa_logits` store: each live element of each row once, with the logit of its row's own token
(`dsaLogits_exact`).
-/

namespace SuffixHybrid.DsaIndexer
open Lib

/-- A row and a column. -/
abbrev Cell := ℕ × ℤ

variable {V : Type} (logit : ℕ → Token → V)

namespace Args
variable (A : Args)

/-! ## A block -/

/-- The union of windows, with one more row. -/
def widen (row0 : ℕ) (g : ℕ × ℕ) (j : ℕ) : ℕ × ℕ :=
  let w := A.window (row0 + j)
  if w.1 < w.2 then (if w.1 < g.1 then w.1 else g.1, if g.2 < w.2 then w.2 else g.2) else g

/-- The union of the windows of a group. -/
def union (row0 : ℕ) : ℕ × ℕ := (List.range A.group).foldl (A.widen row0) (2 ^ 32 - 1, 0)

/-- The tiles of a block, `none` if it has none. -/
def tiles (row0 s : ℕ) : Option (ℕ × ℕ) :=
  let g := A.union row0
  if g.2 = 0 then none
  else
    let t0 := g.1 / 64
    let t1 := cdiv g.2 64
    let per := if cdiv (t1 - t0) A.splits < A.minTiles then A.minTiles else cdiv (t1 - t0) A.splits
    let k0 := u32 (t0 + s * per)
    if t1 ≤ k0 then none else some (k0, if u32 (k0 + per) < t1 then u32 (k0 + per) else t1)

/-- The items of a block, with at most `fuel` rounds of the loop. -/
def block (fuel : ℕ) (smem : Bool → Stage) (s y : ℕ) : Option (List (Item × Stage)) :=
  let row0 := y * A.group
  match A.tiles row0 s with
  | none => some []
  | some (k0, k1) =>
    match A.nextItem row0 k0 [] k1 with
    | none => some []
    | some it => A.itemLoop row0 k1 fuel it false (Function.update smem false (A.issue row0 it (smem false)))

/-- What a warp stores of an item. -/
def warpStores (row0 : ℕ) (e : Item × Stage) (warp : ℕ) : List (Cell × V) :=
  let jr := warp / A.slices
  let row := row0 + jr
  let w := A.window row
  if jr ∈ e.1.mem then
    (steps (warp % A.slices) 8 A.slices).flatMap fun nt =>
      let n0 := e.1.k * 64 + nt * 8
      if n0 < w.2 ∧ w.1 < n0 + 8 then
        (List.range 4).flatMap fun t => (List.range 2).flatMap fun b =>
          let n := n0 + 2 * t + b
          if w.1 ≤ n ∧ n < w.2 then [((row, (n : ℤ)), logit row (e.2 (nt * 8 + 2 * t + b)))] else []
      else []
  else []

/-- What a block stores of an item. -/
def itemStores (row0 : ℕ) (e : Item × Stage) : List (Cell × V) :=
  (List.range (A.group * A.slices)).flatMap (A.warpStores logit row0 e)

/-- The table entries that the rows of an item are compared by. -/
def itemReads (row0 : ℕ) (e : Item × Stage) : List (ℕ × ℤ) :=
  if A.paged then e.1.rem.map fun j => ((row0 + j) / A.btDiv, (e.1.k : ℤ)) else []

/-- The blocks of the grid. -/
def grid : List (ℕ × ℕ) := List.range (cdiv A.rows A.group) ×ˢ List.range A.splits

/-- What a block stores and what it reads of the table. -/
def blockLogits (fuel : ℕ) (smem : ℕ × ℕ → Bool → Stage) (p : ℕ × ℕ) : Option (List (Cell × V) × List (ℕ × ℤ)) :=
  (A.block fuel (smem p) p.2 p.1).map fun items =>
    (items.flatMap (A.itemStores logit (p.1 * A.group)), items.flatMap (A.itemReads (p.1 * A.group)))

/-- A launch of `dsa_logits`. -/
def dsaLogits (fuel : ℕ) (smem : ℕ × ℕ → Bool → Stage) : Option (List (Cell × V) × List (ℕ × ℤ)) :=
  (A.grid.mapM (A.blockLogits logit fuel smem)).map fun blocks => (blocks.flatMap (·.1), blocks.flatMap (·.2))

/-! ## Windows -/

/-- An element of a row that the kernel stores. -/
def Live (row : ℕ) (n : ℤ) : Prop :=
  row < A.rows ∧ 0 ≤ n ∧ n < A.nCols ∧ n < A.hi row ∧ (A.hasLo → A.lo row ≤ n)

/-- The token of a row, through its own entry of the table. -/
def token (row : ℕ) (n : ℤ) : Token := (if A.paged then A.bt (row / A.btDiv) (n / 64) else n / 64, n % 64)

variable {A}

lemma window_iff {row n : ℕ} : (A.window row).1 ≤ n ∧ n < (A.window row).2 ↔ A.Live row n := by
  by_cases hrow : A.rows ≤ row
  · rw [window, if_pos hrow, Live]
    omega
  · have hhi : (n < if A.hi row < 0 then 0 else if A.nCols < (A.hi row).toNat then A.nCols else (A.hi row).toNat) ↔
        (n : ℤ) < A.nCols ∧ (n : ℤ) < A.hi row := by
      split_ifs <;> omega
    have hlo : (if (if A.hasLo then A.lo row else 0) < 0 then 0 else (if A.hasLo then A.lo row else 0).toNat) ≤ n ↔
        (A.hasLo → A.lo row ≤ n) := by
      cases A.hasLo with
      | false => simp
      | true =>
        simp only [if_true, true_imp_iff]
        split_ifs <;> omega
    rw [window, if_neg hrow]
    dsimp only
    rw [hhi, hlo]
    exact ⟨fun ⟨hl, hc, hh⟩ => ⟨not_le.mp hrow, Int.natCast_nonneg n, hc, hh, hl⟩, fun ⟨_, _, hc, hh, hl⟩ => ⟨hl, hc, hh⟩⟩

lemma window_le {row : ℕ} (h : (A.window row).1 < (A.window row).2) : (A.window row).2 ≤ A.nCols := by
  have hlive : A.Live row ((A.window row).2 - 1 : ℕ) := window_iff.mp (by omega)
  have := hlive.2.2.1
  omega

lemma mem_active {row0 k j : ℕ} : j ∈ A.active row0 k ↔ j < A.group ∧ ∃ n : ℕ, n / 64 = k ∧ A.Live (row0 + j) n := by
  unfold active
  dsimp only
  rw [List.mem_filter, List.mem_range, decide_eq_true_eq]
  refine and_congr_right fun _ => ⟨fun h => ?_, ?_⟩
  · exact ⟨max (A.window (row0 + j)).1 (k * 64), by omega, window_iff.mp (by omega)⟩
  · rintro ⟨n, rfl, h⟩
    have := window_iff.mpr h
    omega

/-! ## Ranges -/

variable (A) in
/-- The tile indices of a launch fit into 32 bits. -/
def Fits : Prop := cdiv A.nCols 64 + A.splits * (A.minTiles + 1) < 2 ^ 32

lemma widen_spec (row0 : ℕ) {g : ℕ × ℕ} (hg : g.2 ≤ A.nCols) (j : ℕ) :
    (A.widen row0 g j).2 ≤ A.nCols ∧ (A.widen row0 g j).1 ≤ g.1 ∧ g.2 ≤ (A.widen row0 g j).2 ∧
      ((A.window (row0 + j)).1 < (A.window (row0 + j)).2 →
        (A.widen row0 g j).1 ≤ (A.window (row0 + j)).1 ∧ (A.window (row0 + j)).2 ≤ (A.widen row0 g j).2) := by
  unfold widen
  dsimp only
  split_ifs with hw h1 h2 h2
  · exact ⟨window_le hw, h1.le, h2.le, fun _ => ⟨le_rfl, le_rfl⟩⟩
  · exact ⟨hg, h1.le, le_rfl, fun _ => ⟨le_rfl, not_lt.mp h2⟩⟩
  · exact ⟨window_le hw, le_rfl, h2.le, fun _ => ⟨not_lt.mp h1, le_rfl⟩⟩
  · exact ⟨hg, le_rfl, le_rfl, fun _ => ⟨not_lt.mp h1, not_lt.mp h2⟩⟩
  · exact ⟨hg, le_rfl, le_rfl, fun h => absurd h hw⟩

/-- The union is around the window of each row. -/
lemma foldl_widen (row0 : ℕ) (js : List ℕ) {g : ℕ × ℕ} (hg : g.2 ≤ A.nCols) :
    (js.foldl (A.widen row0) g).2 ≤ A.nCols ∧ (js.foldl (A.widen row0) g).1 ≤ g.1 ∧ g.2 ≤ (js.foldl (A.widen row0) g).2 ∧
      ∀ j ∈ js, (A.window (row0 + j)).1 < (A.window (row0 + j)).2 →
        (js.foldl (A.widen row0) g).1 ≤ (A.window (row0 + j)).1 ∧
          (A.window (row0 + j)).2 ≤ (js.foldl (A.widen row0) g).2 := by
  induction js generalizing g with
  | nil => exact ⟨hg, le_rfl, le_rfl, fun j hj => absurd hj List.not_mem_nil⟩
  | cons j js ih =>
    obtain ⟨h1, h2, h3, h4⟩ := widen_spec row0 hg j
    obtain ⟨i1, i2, i3, i4⟩ := ih h1
    refine ⟨i1, i2.trans h2, h3.trans i3, fun j' hj' hlive => ?_⟩
    obtain rfl | hj' := List.mem_cons.mp hj'
    · exact ⟨i2.trans (h4 hlive).1, (h4 hlive).2.trans i3⟩
    · exact i4 j' hj' hlive

lemma union_spec (row0 : ℕ) : (A.union row0).2 ≤ A.nCols ∧
    ∀ j < A.group, ∀ n : ℕ, A.Live (row0 + j) n → (A.union row0).1 ≤ n ∧ n < (A.union row0).2 := by
  obtain ⟨hle, -, -, hmem⟩ := foldl_widen row0 (List.range A.group) (show (2 ^ 32 - 1, 0).2 ≤ A.nCols from Nat.zero_le _)
  refine ⟨hle, fun j hj n hn => ?_⟩
  have hw := window_iff.mpr hn
  have h := hmem j (List.mem_range.mpr hj) (by omega)
  exact ⟨h.1.trans hw.1, hw.2.trans_le h.2⟩

lemma tiles_le {row0 s k0 k1 : ℕ} (h : A.tiles row0 s = some (k0, k1)) : k1 ≤ cdiv A.nCols 64 := by
  have hcap : cdiv (A.union row0).2 64 ≤ cdiv A.nCols 64 := cdiv_mono (by decide) (A.union_spec row0).1
  unfold tiles at h
  dsimp only at h
  generalize (if cdiv (cdiv (A.union row0).2 64 - (A.union row0).1 / 64) A.splits < A.minTiles then A.minTiles
    else cdiv (cdiv (A.union row0).2 64 - (A.union row0).1 / 64) A.splits) = per at h
  split_ifs at h with h0 h1 h2
  · obtain ⟨-, rfl⟩ := Prod.mk.inj (Option.some.inj h)
    exact h2.le.trans hcap
  · obtain ⟨-, rfl⟩ := Prod.mk.inj (Option.some.inj h)
    exact hcap

/-- The tile of an element is in the range of one block of its group. -/
lemma tiles_cover (hf : A.Fits) (row0 : ℕ) {j n : ℕ} (hj : j < A.group) (hn : A.Live (row0 + j) n) :
    ∃ s < A.splits, ∀ s' < A.splits, (∃ k0 k1, A.tiles row0 s' = some (k0, k1) ∧ k0 ≤ n / 64 ∧ n / 64 < k1) ↔ s' = s := by
  obtain ⟨hle, hunion⟩ := A.union_spec row0
  obtain ⟨hlo, hhi⟩ := hunion j hj n hn
  have hs := A.splits_pos
  rw [Fits] at hf
  generalize hg : A.union row0 = g at hle hlo hhi
  have ht1 : n / 64 < cdiv g.2 64 := (lt_cdiv_iff (by decide)).mpr (by omega)
  have hcap : cdiv g.2 64 ≤ cdiv A.nCols 64 := cdiv_mono (by decide) hle
  generalize ht : cdiv g.2 64 = t1 at ht1 hcap
  generalize hper : (if cdiv (t1 - g.1 / 64) A.splits < A.minTiles then A.minTiles
    else cdiv (t1 - g.1 / 64) A.splits) = per
  have hshare : t1 - g.1 / 64 ≤ A.splits * cdiv (t1 - g.1 / 64) A.splits := le_mul_cdiv hs
  have hround : A.splits * cdiv (t1 - g.1 / 64) A.splits ≤ t1 - g.1 / 64 + A.splits := by
    have hdiv := Nat.mul_div_le (t1 - g.1 / 64 + A.splits - 1) A.splits
    rw [cdiv]
    omega
  have hcover : t1 - g.1 / 64 ≤ A.splits * per := by
    rw [← hper]
    split_ifs with hmin
    · exact hshare.trans (Nat.mul_le_mul_left _ hmin.le)
    · exact hshare
  have hfit : A.splits * per ≤ t1 - g.1 / 64 + A.splits * (A.minTiles + 1) := by
    have hsplit : A.splits * (A.minTiles + 1) = A.splits * A.minTiles + A.splits := Nat.mul_succ _ _
    rw [← hper]
    split_ifs
    · omega
    · omega
  obtain ⟨s, hlt, hiff⟩ := exists_share (show t1 ≤ g.1 / 64 + A.splits * per by omega) (by omega) ht1
  refine ⟨s, hlt, fun s' hs' => (Iff.trans ?_ (hiff s'))⟩
  have hend : s' * per + per ≤ A.splits * per := by
    have := Nat.mul_le_mul_right per hs'
    rwa [Nat.succ_mul] at this
  have hwrap0 : u32 (g.1 / 64 + s' * per) = g.1 / 64 + s' * per := u32_of_lt (by omega)
  have hwrap1 : u32 (g.1 / 64 + s' * per + per) = g.1 / 64 + s' * per + per := u32_of_lt (by omega)
  have htile : A.tiles row0 s' = if t1 ≤ g.1 / 64 + s' * per then none
      else some (g.1 / 64 + s' * per, if g.1 / 64 + s' * per + per < t1 then g.1 / 64 + s' * per + per else t1) := by
    unfold tiles
    dsimp only
    rw [hg, if_neg (by omega), ht, hper, hwrap0, hwrap1]
  have hmin : (if g.1 / 64 + s' * per + per < t1 then g.1 / 64 + s' * per + per else t1) =
      min (g.1 / 64 + s' * per + per) t1 := by
    split_ifs <;> omega
  rw [htile, hmin]
  split_ifs with h1
  · refine ⟨fun h => ?_, fun h => ?_⟩
    · obtain ⟨k0, k1, h, -⟩ := h
      cases h
    · omega
  · simp only [Option.some.injEq, Prod.mk.injEq]
    refine ⟨fun h => ?_, fun h => ⟨_, _, ⟨rfl, rfl⟩, h.1, Nat.lt_min.mpr ⟨h.2, ht1⟩⟩⟩
    obtain ⟨k0, k1, ⟨rfl, rfl⟩, hlow, hhigh⟩ := h
    exact ⟨hlow, (Nat.lt_min.mp hhigh).1⟩

/-! ## The stores of an item -/

variable (A) in
/-- What a cell gets. -/
def value (c : Cell) : V := logit c.1 (A.token c.1 c.2)

/-- The stores of a warp in eight columns. -/
lemma exactly_lanes {row n0 : ℕ} {v : ℕ → ℕ → V}
    (hv : ∀ t < 4, ∀ b < 2, A.Live row (n0 + 2 * t + b : ℕ) → v t b = A.value logit (row, (n0 + 2 * t + b : ℕ))) :
    Exactly ((List.range 4).flatMap fun t => (List.range 2).flatMap fun b =>
        if (A.window row).1 ≤ n0 + 2 * t + b ∧ n0 + 2 * t + b < (A.window row).2 then
          [((row, ((n0 + 2 * t + b : ℕ) : ℤ)), v t b)] else [])
      (fun c => ∃ n : ℕ, c = (row, (n : ℤ)) ∧ n0 ≤ n ∧ n < n0 + 8 ∧ A.Live row n) (A.value logit) := by
  have hpair : ∀ {t b t' b' : ℕ} {c : Cell}, b < 2 → b' < 2 → (row, ((n0 + 2 * t + b : ℕ) : ℤ)) = c →
      (row, ((n0 + 2 * t' + b' : ℕ) : ℤ)) = c → t = t' ∧ b = b' := fun hb hb' h h' => by
    have := (Prod.mk.inj (h.trans h'.symm)).2
    omega
  refine (Exactly.grid List.nodup_range (fun t ht => Exactly.grid List.nodup_range (fun b hb => Exactly.single fun h =>
    hv t (List.mem_range.mp ht) b (List.mem_range.mp hb) (window_iff.mp h)) ?_) ?_).congr fun c => ?_
  · rintro b hb b' hb' c ⟨-, h⟩ ⟨-, h'⟩
    exact (hpair (List.mem_range.mp hb) (List.mem_range.mp hb') h h').2
  · rintro t - t' - c ⟨b, hb, -, h⟩ ⟨b', hb', -, h'⟩
    exact (hpair (List.mem_range.mp hb) (List.mem_range.mp hb') h h').1
  · constructor
    · rintro ⟨t, ht, b, hb, hw, rfl⟩
      rw [List.mem_range] at ht hb
      exact ⟨_, rfl, by omega, by omega, window_iff.mp hw⟩
    · rintro ⟨n, rfl, hlo, hhi, hlive⟩
      have hn : n0 + 2 * ((n - n0) / 2) + (n - n0) % 2 = n := by omega
      refine ⟨(n - n0) / 2, List.mem_range.mpr (by omega), (n - n0) % 2, List.mem_range.mpr (by omega), ?_, ?_⟩
      · rw [hn]
        exact window_iff.mpr hlive
      · rw [hn]

/-- A member's value, from the stage of the leader. -/
lemma logit_stage {row0 : ℕ} {e : Item × Stage} (hok : A.Ok row0 e.1) (hst : A.Staged row0 e.1 e.2) {j i : ℕ}
    (hj : j ∈ e.1.mem) (hi : i < 64) (hlive : A.Live (row0 + j) (e.1.k * 64 + i : ℕ)) :
    logit (row0 + j) (e.2 i) = A.value logit (row0 + j, (e.1.k * 64 + i : ℕ)) := by
  have hdiv : ((e.1.k * 64 + i : ℕ) : ℤ) / 64 = e.1.k := by omega
  have hmod : ((e.1.k * 64 + i : ℕ) : ℤ) % 64 = i := by omega
  have hcol : e.1.k * 64 + i < A.nCols := by exact_mod_cast hlive.2.2.1
  have htok : A.token (row0 + j) (e.1.k * 64 + i : ℕ) = (A.page row0 j e.1.k, (i : ℤ)) := by
    rw [token, hdiv, hmod, page]
  rw [value, htok, hst i (.inr hcol), (hok.pages j hj).2]

/-- The stores of a warp: those of its row in the columns of its slice. -/
lemma warpStores_exact {row0 : ℕ} {e : Item × Stage} (hok : A.Ok row0 e.1) (hst : A.Staged row0 e.1 e.2) (warp : ℕ) :
    Exactly (A.warpStores logit row0 e warp) (fun c => warp / A.slices ∈ e.1.mem ∧
      ∃ n : ℕ, c = (row0 + warp / A.slices, (n : ℤ)) ∧ n / 64 = e.1.k ∧ n % 64 / 8 % A.slices = warp % A.slices ∧
        A.Live (row0 + warp / A.slices) n) (A.value logit) := by
  have hslices := A.slices_pos
  refine Exactly.ite fun hmem => (Exactly.grid (nodup_steps hslices) (fun nt hnt => Exactly.ite fun _ =>
    exactly_lanes logit fun t ht b hb hlive => ?_) ?_).congr fun c => ?_
  · obtain ⟨i, rfl, hnt⟩ := (mem_steps_iff hslices).mp hnt
    rw [show e.1.k * 64 + (warp % A.slices + i * A.slices) * 8 + 2 * t + b =
      e.1.k * 64 + ((warp % A.slices + i * A.slices) * 8 + 2 * t + b) by omega] at hlive ⊢
    exact logit_stage logit hok hst hmem (by omega) hlive
  · rintro nt - nt' - c ⟨-, n, rfl, hlo, hhi, -⟩ ⟨-, n', hn', hlo', hhi', -⟩
    have := (Prod.mk.inj hn').2
    omega
  · constructor
    · rintro ⟨nt, hnt, -, n, rfl, hlo, hhi, hlive⟩
      obtain ⟨i, rfl, hnt⟩ := (mem_steps_iff hslices).mp hnt
      have hcol : n % 64 / 8 = warp % A.slices + i * A.slices := by omega
      refine ⟨n, rfl, by omega, ?_, hlive⟩
      rw [hcol, Nat.add_mul_mod_self_right, Nat.mod_mod]
    · rintro ⟨n, rfl, hk, hslice, hlive⟩
      have hw := window_iff.mpr hlive
      refine ⟨n % 64 / 8, (mem_steps_iff hslices).mpr ⟨n % 64 / 8 / A.slices, ?_, by omega⟩, by omega, n, rfl, by omega,
        by omega, hlive⟩
      rw [← hslice, Nat.mod_add_div']

/-- The stores of an item: the live elements of its tile in the rows that are its members. -/
lemma itemStores_exact {row0 : ℕ} {e : Item × Stage} (hok : A.Ok row0 e.1) (hst : A.Staged row0 e.1 e.2) :
    Exactly (A.itemStores logit row0 e)
      (fun c => ∃ j ∈ e.1.mem, ∃ n : ℕ, c = (row0 + j, (n : ℤ)) ∧ n / 64 = e.1.k ∧ A.Live (row0 + j) n)
      (A.value logit) := by
  have hslices := A.slices_pos
  refine (Exactly.grid List.nodup_range (fun warp _ => warpStores_exact logit hok hst warp) ?_).congr fun c => ?_
  · rintro warp - warp' - c ⟨-, n, rfl, -, hs, -⟩ ⟨-, n', hn', -, hs', -⟩
    obtain ⟨hrow, hcol⟩ := Prod.mk.inj hn'
    obtain rfl := Int.ofNat_inj.mp hcol
    rw [← Nat.div_add_mod warp A.slices, ← Nat.div_add_mod warp' A.slices, ← hs, ← hs', Nat.add_left_cancel hrow]
  · constructor
    · rintro ⟨warp, -, hmem, n, rfl, hk, -, hlive⟩
      exact ⟨_, hmem, n, rfl, hk, hlive⟩
    · rintro ⟨j, hj, n, rfl, hk, hlive⟩
      have hgroup : j < A.group := (mem_active.mp (hok.rem j (hok.pages j hj).1)).1
      have hmod : n % 64 / 8 % A.slices < A.slices := Nat.mod_lt _ hslices
      have hdiv : (j * A.slices + n % 64 / 8 % A.slices) / A.slices = j := by
        rw [Nat.mul_comm, Nat.mul_add_div hslices, Nat.div_eq_of_lt hmod, Nat.add_zero]
      have hrest : (j * A.slices + n % 64 / 8 % A.slices) % A.slices = n % 64 / 8 % A.slices :=
        Nat.mul_add_mod_of_lt hmod
      refine ⟨j * A.slices + n % 64 / 8 % A.slices, List.mem_range.mpr (place_lt hgroup hmod), ?_⟩
      rw [hdiv, hrest]
      exact ⟨hj, n, rfl, hk, rfl, hlive⟩

/-! ## A launch -/

variable (A) in
/-- The elements of a block: those of its rows in the tiles of its range. -/
def Share (row0 s : ℕ) (c : Cell) : Prop := ∃ j < A.group, ∃ n : ℕ, c = (row0 + j, (n : ℤ)) ∧ A.Live (row0 + j) n ∧
  ∃ k0 k1, A.tiles row0 s = some (k0, k1) ∧ k0 ≤ n / 64 ∧ n / 64 < k1

variable (A) in
/-- A table entry of a live element. -/
def LiveEntry (e : ℕ × ℤ) : Prop := ∃ row n, A.Live row n ∧ e = (row / A.btDiv, n / 64)

lemma liveEntry_of_itemReads {row0 : ℕ} {e : Item × Stage} (hok : A.Ok row0 e.1) {r : ℕ × ℤ}
    (hr : r ∈ A.itemReads row0 e) : A.LiveEntry r := by
  unfold itemReads at hr
  split_ifs at hr with hpaged
  · obtain ⟨j, hj, rfl⟩ := List.mem_map.mp hr
    obtain ⟨-, n, hk, hlive⟩ := mem_active.mp (hok.rem j hj)
    refine ⟨row0 + j, n, hlive, ?_⟩
    rw [← hk, Int.natCast_ediv, Nat.cast_ofNat]
  · cases hr

/-- A block ends and stores its share. -/
lemma blockLogits_exact {fuel : ℕ} (hfuel : cdiv A.nCols 64 * A.group < fuel) (smem : ℕ × ℕ → Bool → Stage) (p : ℕ × ℕ) :
    ∃ out, A.blockLogits logit fuel smem p = some out ∧
      Exactly out.1 (A.Share (p.1 * A.group) p.2) (A.value logit) ∧ ∀ r ∈ out.2, A.LiveEntry r := by
  rw [blockLogits, block]
  cases htiles : A.tiles (p.1 * A.group) p.2 with
  | none =>
    refine ⟨_, rfl, (Exactly.nil _).congr fun c => iff_of_false id ?_, nofun⟩
    rintro ⟨j, -, n, -, -, k0, k1, h, -⟩
    rw [htiles] at h
    cases h
  | some range =>
    obtain ⟨k0, k1⟩ := range
    have hshare : ∀ c, A.Share (p.1 * A.group) p.2 c ↔ ∃ j, ∃ n : ℕ, c = (p.1 * A.group + j, (n : ℤ)) ∧
        A.Live (p.1 * A.group + j) n ∧ A.Left (p.1 * A.group) k0 [] k1 (n / 64) j := fun c => by
      constructor
      · rintro ⟨j, hj, n, hc, hlive, k0', k1', htiles', hlo, hhi⟩
        obtain ⟨rfl, rfl⟩ := Prod.mk.inj (Option.some.inj (htiles.symm.trans htiles'))
        exact ⟨j, n, hc, hlive, hlo, hhi, mem_active.mpr ⟨hj, n, rfl, hlive⟩, fun _ => List.not_mem_nil⟩
      · rintro ⟨j, n, hc, hlive, hlo, hhi, hj, -⟩
        exact ⟨j, (mem_active.mp hj).1, n, hc, hlive, k0, k1, htiles, hlo, hhi⟩
    have hspec := A.nextItem_spec (p.1 * A.group) k0 k1 []
    dsimp only
    cases hfirst : A.nextItem (p.1 * A.group) k0 [] k1 with
    | none =>
      rw [hfirst] at hspec
      refine ⟨_, rfl, (Exactly.nil _).congr fun c => iff_of_false id fun h => ?_, nofun⟩
      obtain ⟨j, n, -, -, hleft⟩ := (hshare c).mp h
      exact hspec _ j hleft
    | some it =>
      rw [hfirst] at hspec
      have hst : A.Staged (p.1 * A.group) it
          (Function.update (smem p) false (A.issue (p.1 * A.group) it (smem p false)) false) := by
        rw [Function.update_self]
        exact staged_issue it _
      have hcap : (A.left (p.1 * A.group) it.k it.served k1).card < fuel :=
        (card_left_le.trans (Nat.mul_le_mul_right _ (tiles_le htiles))).trans_lt hfuel
      obtain ⟨trace, hrun, hserving⟩ := itemLoop_serves fuel hspec.ok hst hcap
      dsimp only
      rw [hrun]
      refine ⟨_, rfl, (Exactly.flatMap (fun e he => itemStores_exact logit (hserving.ok e he).1 (hserving.ok e he).2)
        (hserving.once.imp fun {e e'} hdisj c hc hc' => ?_)).congr fun c => ?_, fun r hr => ?_⟩
      · obtain ⟨j, hj, n, rfl, hk, -⟩ := hc
        obtain ⟨j', hj', n', hc, hk', -⟩ := hc'
        obtain ⟨hrow, hcol⟩ := Prod.mk.inj hc
        obtain rfl := Int.ofNat_inj.mp hcol
        obtain rfl := Nat.add_left_cancel hrow
        exact hdisj (hk.symm.trans hk') j hj hj'
      · have hserved : ∀ k j, (∃ e ∈ trace, e.1.k = k ∧ j ∈ e.1.mem) ↔ A.Left (p.1 * A.group) k0 [] k1 k j := fun k j =>
          (hserving.left k j).trans (hspec.rest k j).symm
        rw [hshare]
        constructor
        · rintro ⟨e, he, j, hj, n, hc, hk, hlive⟩
          exact ⟨j, n, hc, hlive, (hserved _ j).mp ⟨e, he, hk.symm, hj⟩⟩
        · rintro ⟨j, n, hc, hlive, hleft⟩
          obtain ⟨e, he, hk, hj⟩ := (hserved _ j).mpr hleft
          exact ⟨e, he, j, hj, n, hc, hk.symm, hlive⟩
      · obtain ⟨e, he, hr⟩ := List.mem_flatMap.mp hr
        exact liveEntry_of_itemReads (hserving.ok e he).1 hr

/-- The group of a row, and its place there. -/
lemma row_iff {row y j : ℕ} (hj : j < A.group) : y * A.group + j = row ↔ row / A.group = y ∧ row % A.group = j := by
  rw [Nat.div_mod_unique A.group_pos, Nat.mul_comm, Nat.add_comm]
  exact (and_iff_left hj).symm

/-- A launch ends and stores each live element once; it reads the entries of live elements alone. -/
theorem dsaLogits_exact (hf : A.Fits) {fuel : ℕ} (hfuel : cdiv A.nCols 64 * A.group < fuel)
    (smem : ℕ × ℕ → Bool → Stage) : ∃ out, A.dsaLogits logit fuel smem = some out ∧
      Exactly out.1 (fun c => A.Live c.1 c.2) (A.value logit) ∧ ∀ r ∈ out.2, A.LiveEntry r := by
  choose f hrun hexact hreads using blockLogits_exact logit hfuel smem
  refine ⟨_, by rw [dsaLogits, mapM_some fun p _ => hrun p, Option.map_some], ?_, fun r hr => ?_⟩
  · dsimp only
    rw [List.flatMap_map]
    have hgrid : A.grid.Nodup := List.Nodup.product List.nodup_range List.nodup_range
    refine (Exactly.grid hgrid (fun p _ => hexact p) ?_).congr fun c => ?_
    · rintro ⟨y, s⟩ hp ⟨y', s'⟩ hp' c ⟨j, hj, n, rfl, hlive, hs⟩ ⟨j', hj', n', hc, hlive', hs'⟩
      obtain ⟨hrow, hcol⟩ := Prod.mk.inj hc
      obtain rfl := Int.ofNat_inj.mp hcol
      obtain ⟨rfl, rfl⟩ : y = y' ∧ j = j' := by
        obtain ⟨h1, h2⟩ := (row_iff hj).mp rfl
        obtain ⟨h1', h2'⟩ := (row_iff hj').mp hrow.symm
        exact ⟨h1.symm.trans h1', h2.symm.trans h2'⟩
      obtain ⟨-, hlt⟩ := List.pair_mem_product.mp hp
      obtain ⟨-, hlt'⟩ := List.pair_mem_product.mp hp'
      obtain ⟨s0, -, hcover⟩ := tiles_cover hf _ hj hlive
      rw [(hcover s (List.mem_range.mp hlt)).mp hs, (hcover s' (List.mem_range.mp hlt')).mp hs']
    · constructor
      · rintro ⟨p, -, j, -, n, rfl, hlive, -⟩
        exact hlive
      · obtain ⟨row, n⟩ := c
        intro hlive
        obtain ⟨n, rfl⟩ := Int.eq_ofNat_of_zero_le hlive.2.1
        have hj : row % A.group < A.group := Nat.mod_lt _ A.group_pos
        obtain hrow := (row_iff hj).mpr ⟨rfl, rfl⟩
        have hy : row / A.group < cdiv A.rows A.group :=
          (lt_cdiv_iff A.group_pos).mpr ((Nat.mul_div_le row A.group).trans_lt hlive.1)
        rw [← hrow] at hlive
        obtain ⟨s, hs, hcover⟩ := tiles_cover hf _ hj hlive
        refine ⟨(row / A.group, s), List.pair_mem_product.mpr ⟨List.mem_range.mpr hy, List.mem_range.mpr hs⟩, _, hj, n,
          ?_, hlive, (hcover s hs).mpr rfl⟩
        rw [hrow]
  · obtain ⟨out, hout, hr⟩ := List.mem_flatMap.mp hr
    obtain ⟨p, -, rfl⟩ := List.mem_map.mp hout
    exact hreads p r hr

end Args
end SuffixHybrid.DsaIndexer
