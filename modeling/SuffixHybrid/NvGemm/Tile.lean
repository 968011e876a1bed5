import SuffixHybrid.NvGemm.SplitK

/-!
# Column tiles

The elements that the threads of a block store, stage and sum: every element of the block's column tile is
stored by one of the threads, and each element of a chunk and of the tile is staged and summed by the thread
with its number modulo 128. What a chunk adds to the running sums.
-/

namespace SuffixHybrid.NvGemm
open Lib

namespace Launch
variable {F B : Type} {L : Launch F B}

/-! ## Stores -/

lemma mul_add_inj {n a b a' b' : ℕ} (hb : b < n) (hb' : b' < n) (h : a * n + b = a' * n + b') :
    a = a' ∧ b = b' := by
  have hn : 0 < n := by omega
  have hmod := congrArg (· % n) h
  simp only [Nat.mul_add_mod', Nat.mod_eq_of_lt hb, Nat.mod_eq_of_lt hb'] at hmod
  subst hmod
  exact ⟨Nat.eq_of_mul_eq_mul_right hn (Nat.add_right_cancel h), rfl⟩

/-- Partial sums of different elements have different places. -/
lemma addr_inj {s row col s' row' col' : ℕ} (hr : row < L.M) (hc : col < L.N) (hr' : row' < L.M)
    (hc' : col' < L.N) (h : L.addr s row col = L.addr s' row' col') : s = s' ∧ row = row' ∧ col = col' := by
  obtain ⟨h1, h2⟩ := mul_add_inj hc hc' h
  obtain ⟨h3, h4⟩ := mul_add_inj hr hr' h1
  exact ⟨h3, h4, h2⟩

lemma mem_cells {x row col : ℕ} {tid : Fin 128} :
    (row, col) ∈ L.cells x tid ↔
      x * 32 + tid.val / 32 * 8 < L.N ∧
        ∃ I < L.MT, ∃ r, (r = 16 * I + tid.val % 32 / 4 ∨ r = 16 * I + tid.val % 32 / 4 + 8) ∧
          r < L.M ∧ row = r ∧ (col = x * 32 + tid.val / 32 * 8 + 2 * (tid.val % 32 % 4) ∨
            col = x * 32 + tid.val / 32 * 8 + 2 * (tid.val % 32 % 4) + 1) := by
  unfold cells
  dsimp only
  by_cases hn : x * 32 + tid.val / 32 * 8 < L.N
  · rw [if_pos hn, and_iff_right hn]
    simp only [List.mem_flatMap, List.mem_range, List.mem_cons, List.not_mem_nil, or_false]
    constructor
    · rintro ⟨I, hI, r, hr, h⟩
      by_cases hM : r < L.M
      · rw [if_pos hM] at h
        simp only [List.mem_cons, List.not_mem_nil, or_false, Prod.mk.injEq] at h
        refine ⟨I, hI, r, hr, hM, ?_⟩
        obtain ⟨e, e'⟩ | ⟨e, e'⟩ := h
        · exact ⟨e, .inl e'⟩
        · exact ⟨e, .inr e'⟩
      · rw [if_neg hM] at h
        cases h
    · rintro ⟨I, hI, r, hr, hM, rfl, hcol⟩
      refine ⟨I, hI, row, hr, ?_⟩
      rw [if_pos hM]
      obtain rfl | rfl := hcol
      · exact List.mem_cons_self
      · exact List.mem_cons_of_mem _ List.mem_cons_self
  · rw [if_neg hn]
    exact ⟨fun h => absurd h List.not_mem_nil, fun h => absurd h.1 hn⟩

/-- A thread stores elements of the block's column tile. -/
lemma of_mem_cells {x row col : ℕ} {tid : Fin 128} (h : (row, col) ∈ L.cells x tid) :
    row < L.M ∧ col < L.N ∧ col / 32 = x := by
  obtain ⟨hn, I, _, r, _, hM, rfl, hcol⟩ := mem_cells.mp h
  have htid := tid.isLt
  have hN := L.cols
  exact ⟨hM, by omega, by omega⟩

/-- Every element of the column tile is stored by a thread. -/
lemma exists_cells {row col : ℕ} (hr : row < L.M) (hc : col < L.N) :
    ∃ tid, (row, col) ∈ L.cells (col / 32) tid := by
  have hrows := L.rows
  obtain ⟨tid, htid⟩ : ∃ tid : Fin 128, tid.val = col % 32 / 8 * 32 + row % 8 * 4 + col % 8 / 2 :=
    ⟨⟨_, by omega⟩, rfl⟩
  exact ⟨tid, mem_cells.mpr ⟨by omega, row / 16, by omega, row, by omega, hr, rfl, by omega⟩⟩

/-! ## Chunks -/

/-- The thread of an element. -/
def owner (i : ℕ) : Fin 128 := ⟨i % 128, Nat.mod_lt i (by decide)⟩

lemma owner_eq_iff {i : ℕ} {tid : Fin 128} : owner i = tid ↔ i % 128 = tid.val := Fin.ext_iff

lemma mem_summed {o : ℕ} {tid : Fin 128} : o ∈ L.summed tid ↔ o < L.tile ∧ owner o = tid := by
  have htid := tid.isLt
  rw [summed, mem_steps_iff (by decide), owner_eq_iff]
  constructor
  · rintro ⟨k, hk, hlt⟩
    omega
  · rintro ⟨hlt, hmod⟩
    exact ⟨o / 128, by omega, hlt⟩

lemma summed_nodup (tid : Fin 128) : (L.summed tid).Nodup := nodup_steps (by decide)

lemma mem_inOut {x o : ℕ} {tid : Fin 128} :
    o ∈ L.inOut x tid ↔ o < L.tile ∧ owner o = tid ∧ x * 32 + o % 32 < L.N := by
  rw [inOut, List.mem_filter, mem_summed, decide_eq_true_eq, and_assoc]

lemma count_inOut {x o : ℕ} {tid : Fin 128} :
    (L.inOut x tid).count o =
      if o < L.tile ∧ owner o = tid ∧ x * 32 + o % 32 < L.N then 1 else 0 := by
  split
  · rename_i h
    exact List.count_eq_one_of_mem ((summed_nodup tid).filter _) (mem_inOut.mpr h)
  · rename_i h
    exact List.count_eq_zero_of_not_mem fun hm => h (mem_inOut.mp hm)

lemma mem_staged {s0 i : ℕ} {tid : Fin 128} :
    i ∈ L.staged s0 tid ↔ i < L.cn s0 * L.tile ∧ owner i = tid := by
  have htid := tid.isLt
  rw [staged, List.mem_flatMap, owner_eq_iff]
  constructor
  · rintro ⟨j, hj, hi⟩
    obtain ⟨k, hk, _⟩ := (mem_steps_iff (by decide)).mp hj
    simp only [List.mem_filter, List.mem_cons, List.not_mem_nil, or_false, decide_eq_true_eq] at hi
    omega
  · rintro ⟨hlt, hmod⟩
    refine ⟨tid.val + i / 512 * 512, (mem_steps_iff (by decide)).mpr ⟨i / 512, rfl, by omega⟩, ?_⟩
    simp only [List.mem_filter, List.mem_cons, List.not_mem_nil, or_false, decide_eq_true_eq]
    omega

lemma cn_le {s0 : ℕ} (h : s0 < L.S) : 0 < L.cn s0 ∧ L.cn s0 ≤ L.ch ∧ s0 + L.cn s0 ≤ L.S := by
  have hpos := L.ch_pos
  rw [cn]
  split
  · omega
  · omega

/-! ## Sums -/

/-- The places of the partial sums of a column tile in a split. -/
def own (L : Launch F B) (x s : ℕ) : Set ℕ :=
  {a | ∃ row < L.M, ∃ col < L.N, col / 32 = x ∧ L.addr s row col = a}

/-- Those in all splits. -/
def all (L : Launch F B) (x : ℕ) : Set ℕ := {a | ∃ s < L.S, a ∈ L.own x s}

/-- The places that hold their partial sums. -/
def held (L : Launch F B) (partials : ℕ → F) : Set ℕ :=
  {a | ∃ s row col, row < L.M ∧ col < L.N ∧ L.addr s row col = a ∧ partials a = L.c s row col}

lemma eq_of_mem_held {partials : ℕ → F} {s row col : ℕ} (hr : row < L.M) (hc : col < L.N)
    (h : L.addr s row col ∈ L.held partials) : partials (L.addr s row col) = L.c s row col := by
  obtain ⟨s', row', col', hr', hc', e, hp⟩ := h
  obtain ⟨rfl, rfl, rfl⟩ := addr_inj hr' hc' hr hc e
  exact hp

lemma mem_all {s row col : ℕ} (hs : s < L.S) (hr : row < L.M) (hc : col < L.N) :
    L.addr s row col ∈ L.all (col / 32) := ⟨s, hs, row, hr, col, hc, rfl, rfl⟩

/-- The stores of a thread put partial sums in their places. -/
lemma held_stores {x s : ℕ} {tid : Fin 128} {partials : ℕ → F} {a : ℕ}
    (h : a ∈ L.held partials ∨ a ∈ L.mine x s tid) :
    a ∈ L.held (storeAll partials (L.stores x s tid)) := by
  have agree : ∀ s' row col, row < L.M → col < L.N → ∀ p ∈ L.stores x s tid,
      p.1 = L.addr s' row col → p.2 = L.c s' row col := fun s' row col hr hc p hp e => by
    obtain ⟨⟨row', col'⟩, hmem, rfl⟩ := List.mem_map.mp hp
    obtain ⟨hr', hc', _⟩ := of_mem_cells hmem
    obtain ⟨rfl, rfl, rfl⟩ := addr_inj hr' hc' hr hc e
    rfl
  obtain ⟨s', row, col, hr, hc, rfl, hp⟩ | ⟨⟨row, col⟩, hmem, rfl⟩ := h
  · exact ⟨s', row, col, hr, hc, rfl, storeAll_of_agree _ (agree s' row col hr hc) (.inl hp)⟩
  · obtain ⟨hr, hc, _⟩ := of_mem_cells hmem
    refine ⟨s, row, col, hr, hc, rfl, storeAll_of_agree _ (agree s row col hr hc) (.inr ?_)⟩
    exact ⟨_, List.mem_map.mpr ⟨(row, col), hmem, rfl⟩, rfl⟩

/-- The running sums are behind the chunk. -/
lemma chunk_lt_sums {s0 i o : ℕ} (hs : s0 < L.S) (hi : i < L.cn s0 * L.tile) : i < L.ch * L.tile + o := by
  have := Nat.mul_le_mul_right L.tile (cn_le hs).2.1
  omega

section Fold
variable [Zero F]

/-- What is staged at `i`. -/
def want (L : Launch F B) (x s0 i : ℕ) : F :=
  if x * 32 + i % 32 < L.N then L.c (s0 + i / L.tile) (i % L.tile / 32) (x * 32 + i % 32) else 0

/-- A thread that knows the partial sums of all splits stages them. -/
lemma part_eq {x s0 i : ℕ} {known : Set ℕ} {partials rd : ℕ → F} (hs : s0 < L.S)
    (hi : i < L.cn s0 * L.tile) (hall : L.all x ⊆ known) (hheld : known ⊆ L.held partials)
    (hrd : Sees known partials rd) : L.part x rd s0 i = L.want x s0 i := by
  unfold part want
  dsimp only
  by_cases hc : x * 32 + i % 32 < L.N
  · rw [if_pos hc, if_pos hc]
    have hdiv : i / L.tile < L.cn s0 := Nat.div_lt_of_lt_mul (Nat.mul_comm _ _ ▸ hi)
    have hpos : 0 < L.tile := Nat.pos_of_ne_zero fun e => by
      rw [e, Nat.mul_zero] at hi
      exact Nat.not_lt_zero i hi
    have hmod : i % L.tile < L.M * 32 := Nat.mod_lt i hpos
    have hr : i % L.tile / 32 < L.M := Nat.div_lt_of_lt_mul (Nat.mul_comm _ _ ▸ hmod)
    have hsplit : s0 + i / L.tile < L.S := by
      have := cn_le hs
      omega
    have hx : (x * 32 + i % 32) / 32 = x := by omega
    have hmem := mem_all hsplit hr hc
    rw [hx] at hmem
    rw [hrd _ (hall hmem)]
    exact eq_of_mem_held hr hc (hheld (hall hmem))
  · rw [if_neg hc, if_neg hc]

variable [Add F]

/-- The sum of the first splits, from 0 and in order. -/
def total (L : Launch F B) (s row col : ℕ) : F :=
  (List.range s).foldl (fun acc s => acc + L.c s row col) 0

/-- A chunk adds its splits in order. -/
lemma addUp_eq {x s0 o : ℕ} {smem : ℕ → F} (ho : o < L.tile) (hc : x * 32 + o % 32 < L.N)
    (hstg : ∀ i < L.cn s0 * L.tile, smem i = L.want x s0 i)
    (hacc : smem (L.ch * L.tile + o) = L.total s0 (o / 32) (x * 32 + o % 32)) :
    L.addUp smem s0 o = L.total (s0 + L.cn s0) (o / 32) (x * 32 + o % 32) := by
  unfold addUp total
  rw [List.range_add, List.foldl_append, List.foldl_map]
  rw [hacc]
  refine List.foldl_ext _ _ _ fun acc s hs => ?_
  have hs := List.mem_range.mp hs
  have hlt : s * L.tile + o < L.cn s0 * L.tile := by
    calc s * L.tile + o < (s + 1) * L.tile := by rw [Nat.succ_mul]; omega
      _ ≤ L.cn s0 * L.tile := Nat.mul_le_mul_right _ hs
  have hpos : 0 < L.tile := by omega
  have hdiv : (s * L.tile + o) / L.tile = s := by
    rw [Nat.mul_comm, Nat.mul_add_div hpos, Nat.div_eq_of_lt ho, Nat.add_zero]
  have hmod : (s * L.tile + o) % L.tile = o := by rw [Nat.mul_add_mod', Nat.mod_eq_of_lt ho]
  -- a tile is a multiple of 32
  have hcol : (s * L.tile + o) % 32 = o % 32 := by
    rw [tile, ← Nat.mul_assoc, Nat.mul_add_mod']
  rw [hstg _ hlt, want, hdiv, hmod, hcol, if_pos hc]

end Fold

end Launch

end SuffixHybrid.NvGemm
