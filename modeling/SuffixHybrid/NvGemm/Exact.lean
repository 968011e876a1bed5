import SuffixHybrid.NvGemm.Gemm

/-!
# What a launch leaves

The registers of a step are its fragments for each source, so a warp accumulates the sums of its split and stores each
of them once (`gemm_exact`).
-/

namespace SuffixHybrid.NvGemm
open Finset Lib

variable {R : Type} [CommRing R] {value f8 : ℕ → R} {MT : ℕ} {A : Args} {o : Operands} {splits split : ℕ}

/-! ## Accumulators -/

/-- The operands of a step, in all lanes. -/
lemma load_holds {s : ASrc} {n0 k0 : ℕ} (hv : A.Valid MT) (hf : A.Fits splits) (hreads : ASrc.Reads s k0 o.code o.sf)
    (hrows : s.aRows = o.aRows) (hpad : s.kbPad = A.kbPad) (hcode : o.wCode = A.operands.wCode)
    (hsf : o.wSf = A.operands.wSf) (hk0 : 64 ∣ k0) (hstep : k0 + 64 ≤ A.k) (hn0 : n0 + 8 ≤ A.n) :
    ∃ a : Fin 32 → Fin MT → (Fin 4 → Word) × Word, ∃ b : Fin 32 → (Fin 2 → Word) × Word,
      (gather fun lane : Fin 32 => loadA MT s k0 lane) = some a ∧
      (gather fun lane : Fin 32 => loadB A.w (A.wRow n0 lane) A.wsf A.kbPad n0 k0 lane) = some b ∧
      (gather fun lane : Fin 32 => loadStepSrc MT s A.w (A.wRow n0 lane) A.wsf n0 k0 lane) =
        some (fun lane => ⟨a lane, b lane⟩) ∧
      StepHolds o n0 k0 fun lane => ⟨a lane, b lane⟩ := by
  have hnkb : k0 + 64 ≤ 16 * A.nkb := by
    have := hv.steps
    unfold Args.nkb
    omega
  have hscale : ∀ c < A.n, sfOffset c (k0 / 16) A.kbPad + 4 ≤ A.wsf.size ∧
      ∀ b < 4, A.wsf.byte (sfOffset c (k0 / 16) A.kbPad + b) = o.wSf c (k0 / 16 + b) := fun c hc => by
    obtain ⟨hin, hb⟩ := swizzled_step hf.wsf hc hk0 hnkb
    refine ⟨hin.trans hv.wsf, fun b hlt => ?_⟩
    rw [hsf]
    exact congrArg A.wsf.byte (hb b hlt)
  choose a sfa ha using fun (lane : Fin 32) (I : Fin MT) => loadTile_holds hreads lane I
  choose b sfb hb using loadB_holds hstep hn0 hv.w hf.w (by have := hf.n; omega) hscale (by omega : 2 ∣ k0)
  have hA : ∀ lane : Fin 32, loadA MT s k0 lane = some fun I => (a lane I, sfa lane I) := fun lane =>
    gather_eq fun I => (ha lane I).1
  have hB : ∀ lane : Fin 32, loadB A.w (A.wRow n0 lane) A.wsf A.kbPad n0 k0 lane = some (b lane, sfb lane) :=
    fun lane => (hb lane).1
  refine ⟨_, _, gather_eq hA, gather_eq hB, gather_eq fun lane => ?_, fun lane I r j hj => ?_, fun lane I i hi => ?_,
    fun lane r j hj => ?_, fun lane i hi => (hb lane).2.2 i hi⟩
  · rw [loadStepSrc, hpad, hB, hA]
    rfl
  · rw [Operands.row, ← hrows]
    exact (ha lane I).2.1 r j hj
  · rw [Operands.rowSf, ← hrows]
    exact (ha lane I).2.2 i hi
  · rw [hcode]
    exact (hb lane).2.1 r j hj

/-- The sums of a warp. -/
def tileAcc (value f8 : ℕ → R) (MT : ℕ) (A : Args) (o : Operands) (split n0 : ℕ) : Acc R MT := fun I lane i =>
  A.dot value f8 o split (16 * I.val + (lane.val / 4 + 8 * (i.val / 2))) (n0 + (2 * (lane.val % 4) + i.val % 2))

/-- A source that has the steps of a split. -/
structure Serves (A : Args) (o : Operands) (split : ℕ) (s : ASrc) : Prop where
  reads : ∀ k0, 64 ∣ k0 → A.kBegin split ≤ k0 → k0 + 64 ≤ A.kEnd split → ASrc.Reads s k0 o.code o.sf
  rows : s.aRows = o.aRows
  pad : s.kbPad = A.kbPad
  code : o.wCode = A.operands.wCode
  sf : o.wSf = A.operands.wSf

section Loop
variable {n0 : ℕ} {s : ASrc} (mma : Mma value f8) (hv : A.Valid MT) (hf : A.Fits splits) (hs : split < splits)
  (hn0 : n0 + 8 ≤ A.n) (hsrc : Serves A o split s)
include hv hf hs hn0 hsrc

/-- The first step and the loop behind it. -/
lemma first_step (hlt : A.kBegin split < A.kEnd split) :
    ∃ a : Fin 32 → Fin MT → (Fin 4 → Word) × Word, ∃ b : Fin 32 → (Fin 2 → Word) × Word,
      (gather fun lane : Fin 32 => loadA MT s (A.kBegin split) lane) = some a ∧
      (gather fun lane : Fin 32 => loadB A.w (A.wRow n0 lane) A.wsf A.kbPad n0 (A.kBegin split) lane) = some b ∧
      (gather fun lane : Fin 32 => loadStepSrc MT s A.w (A.wRow n0 lane) A.wsf n0 (A.kBegin split) lane) =
        some (fun lane => ⟨a lane, b lane⟩) ∧
      pipeline mma (fun k0 => gather fun lane => loadStepSrc MT s A.w (A.wRow n0 lane) A.wsf n0 k0 lane)
        (fun lane => ⟨a lane, b lane⟩) (fun _ _ _ => 0) (steps (A.kBegin split + 64) (A.kEnd split) 64) =
          some (tileAcc value f8 MT A o split n0) := by
  have hend : A.kEnd split = min A.k ((split + 1) * A.kps * 64) := Args.kEnd_eq hf hs
  have hbegin : A.kBegin split = split * A.kps * 64 := Args.kBegin_eq hf hs
  have hdvd : 64 ∣ A.kBegin split := by
    rw [hbegin]
    exact Nat.dvd_mul_left 64 _
  have hdvd' : 64 ∣ A.kEnd split := by
    rw [hend]
    obtain h | h := min_choice A.k ((split + 1) * A.kps * 64)
    · rw [h]
      exact hv.steps
    · rw [h]
      exact Nat.dvd_mul_left 64 _
  have hk : A.kEnd split ≤ A.k := hend.trans_le (min_le_left _ _)
  have hload := fun k0 (h64 : 64 ∣ k0) (hlo : A.kBegin split ≤ k0) (hhi : k0 + 64 ≤ A.kEnd split) =>
    load_holds hv hf (hsrc.reads k0 h64 hlo hhi) hsrc.rows hsrc.pad hsrc.code hsrc.sf h64 (hhi.trans hk) hn0
  obtain ⟨a, b, ha, hb, hab, hcur⟩ := hload _ hdvd le_rfl (by omega)
  obtain ⟨c, hrun, hc⟩ := loop_eq mma hlt hdvd hdvd' (fun k0 h64 hlo hhi => by
    obtain ⟨a, b, -, -, h, hholds⟩ := hload k0 h64 hlo.le (by omega)
    exact ⟨_, h, hholds⟩) hcur
  refine ⟨a, b, ha, hb, hab, hrun.trans (congrArg some (funext fun I => funext fun lane => funext fun i => ?_))⟩
  rw [hc, hbegin, hend, tileAcc, Args.dot]

omit hv hn0 hsrc in
/-- A split without steps has no sums. -/
lemma tileAcc_empty (hlt : ¬A.kBegin split < A.kEnd split) : (fun _ _ _ => 0) = tileAcc value f8 MT A o split n0 :=
  funext fun I => funext fun lane => funext fun i => by
    rw [tileAcc, Args.dot, ← Args.kBegin_eq hf hs, ← Args.kEnd_eq hf hs, Ico_eq_empty hlt, sum_empty]

/-- The loop of `gemm_fused`. -/
lemma kLoop_eq : ∃ b0, firstB A n0 split = some b0 ∧
    kLoop mma (A.kBegin split) (A.kEnd split) s A.w (fun lane => A.wRow n0 lane) A.wsf n0 b0 =
      some (tileAcc value f8 MT A o split n0) := by
  have hactive : n0 < A.n := by omega
  by_cases hlt : A.kBegin split < A.kEnd split
  · obtain ⟨a, b, ha, hb, -, hrun⟩ := first_step mma hv hf hs hn0 hsrc hlt
    refine ⟨b, ?_, ?_⟩
    · rw [firstB, if_pos ⟨hactive, hlt⟩, if_pos hactive, hb]
    · rw [kLoop, if_pos hlt, ha]
      exact hrun
  · refine ⟨_, if_neg fun h => hlt h.2, ?_⟩
    rw [kLoop, if_neg hlt]
    exact congrArg some (tileAcc_empty hf hs hlt)

/-- The loop of `gemm_body`. -/
lemma bodyLoop_eq : bodyLoop mma (fun k0 => gather fun lane => loadStepSrc MT s A.w (A.wRow n0 lane) A.wsf n0 k0 lane)
    (A.kBegin split) (A.kEnd split) = some (tileAcc value f8 MT A o split n0) := by
  rw [bodyLoop]
  split_ifs with hlt
  · obtain ⟨a, b, -, -, hab, hrun⟩ := first_step mma hv hf hs hn0 hsrc hlt
    rw [hab]
    exact hrun
  · exact congrArg some (tileAcc_empty hf hs hlt)

end Loop

/-! ## Stores -/

/-- The stores of a thread. -/
def tileStores (value f8 : ℕ → R) (MT : ℕ) (A : Args) (o : Operands) (x split tid : ℕ) : List (Pair R) :=
  let n0 := x * 32 + tid / 32 * 8
  if n0 < A.n then storePairs A.m n0 (tileAcc value f8 MT A o split n0) (wrapped lanes_pos tid) else []

omit [CommRing R] in
lemma cells_ite {c : Prop} [Decidable c] (p : Pair R) :
    (if c then [p] else []).flatMap Pair.cells = if c then [(p.row, p.col), (p.row, p.col + 1)] else [] := by
  split_ifs <;> rfl

lemma cells_tileStores (x tid : ℕ) :
    (tileStores value f8 MT A o x split tid).flatMap Pair.cells = storeTile MT A.m A.n x tid := by
  unfold tileStores storeTile storePairs
  dsimp only
  split_ifs
  · rw [List.flatMap_assoc, ← List.map_coe_finRange_eq_range, List.flatMap_map]
    refine List.flatMap_congr fun I _ => ?_
    rw [List.flatMap_append, cells_ite, cells_ite, List.flatMap_cons, List.flatMap_cons, List.flatMap_nil,
      List.append_nil]
    rfl
  · rfl

/-- The sums in a pair. -/
lemma of_mem_tileStores {x tid : ℕ} {p : Pair R} (h : p ∈ tileStores value f8 MT A o x split tid) :
    p.v0 = A.dot value f8 o split p.row p.col ∧ p.v1 = A.dot value f8 o split p.row (p.col + 1) := by
  unfold tileStores storePairs at h
  dsimp only at h
  split_ifs at h
  · obtain ⟨I, -, h⟩ := List.mem_flatMap.mp h
    obtain h | h := List.mem_append.mp h
    · split_ifs at h
      · rw [List.mem_singleton.mp h]
        exact ⟨rfl, rfl⟩
      · cases h
    · split_ifs at h
      · rw [List.mem_singleton.mp h]
        exact ⟨rfl, rfl⟩
      · cases h
  · cases h

namespace Dest
variable {d : Dest R} {m n split' row row' col col' : ℕ}

omit [CommRing R] in
/-- Different elements have different places. -/
lemma place_inj (h : d.Fits m n splits) (hs : split < splits) (hs' : split' < splits) (hr : row < m) (hr' : row' < m)
    (hc : col < n) (hc' : col' < n) (heq : d.place m n split row col = d.place m n split' row' col') :
    split = split' ∧ row = row' ∧ col = col' := by
  cases d with
  | partials =>
    have hfit : splits * m * n ≤ 2 ^ 32 := h
    have hlt : ∀ {s r c}, s < splits → r < m → c < n → (s * m + r) * n + c < 2 ^ 32 := fun hs hr hc =>
      (place_lt (place_lt hs hr) hc).trans_le hfit
    simp only [place, u32_of_lt (hlt hs hr hc), u32_of_lt (hlt hs' hr' hc')] at heq
    obtain ⟨hrow, hcol⟩ := Launch.mul_add_inj hc hc' heq
    obtain ⟨h1, h2⟩ := Launch.mul_add_inj hr hr' hrow
    exact ⟨h1, h2, hcol⟩
  | out stride alpha bf16 =>
    obtain ⟨rfl, hstride, hfit⟩ : splits = 1 ∧ n ≤ stride ∧ m * stride ≤ 2 ^ 32 := h
    have hlt : ∀ {r c}, r < m → c < n → r * stride + c < 2 ^ 32 := fun hr hc =>
      (place_lt hr (hc.trans_le hstride)).trans_le hfit
    simp only [place, u32_of_lt (hlt hr hc), u32_of_lt (hlt hr' hc')] at heq
    obtain ⟨hrow, hcol⟩ := Launch.mul_add_inj (hc.trans_le hstride) (hc'.trans_le hstride) heq
    exact ⟨by omega, hrow, hcol⟩

omit [CommRing R] in
lemma place_succ (h : d.Fits m n splits) (hs : split < splits) (hr : row < m) (hc : col + 1 < n) :
    d.place m n split row col + 1 = d.place m n split row (col + 1) := by
  cases d with
  | partials =>
    have hfit : splits * m * n ≤ 2 ^ 32 := h
    have hlt := (place_lt (place_lt hs hr) hc).trans_le hfit
    simp only [place]
    rw [u32_of_lt (by omega), u32_of_lt hlt, Nat.add_assoc]
  | out stride alpha bf16 =>
    obtain ⟨-, hstride, hfit⟩ : splits = 1 ∧ n ≤ stride ∧ m * stride ≤ 2 ^ 32 := h
    have hlt := (place_lt hr (hc.trans_le hstride)).trans_le hfit
    simp only [place]
    rw [u32_of_lt (by omega), u32_of_lt hlt, Nat.add_assoc]

end Dest

lemma tileStores_lane (x warp : ℕ) (lane : Fin 32) : tileStores value f8 MT A o x split (warp * 32 + lane.val) =
    if x * 32 + warp * 8 < A.n then storePairs A.m (x * 32 + warp * 8)
      (tileAcc value f8 MT A o split (x * 32 + warp * 8)) lane else [] := by
  have hwarp : (warp * 32 + lane.val) / 32 = warp := by omega
  have hlane : wrapped lanes_pos (warp * 32 + lane.val) = lane := Fin.ext (by
    change (warp * 32 + lane.val) % 32 = lane
    omega)
  rw [tileStores, hwarp, hlane]

/-- A launch whose warps accumulate the sums. -/
lemma exact_of {d : Dest R} {run : ℕ → ℕ → ℕ → Option (Fin 32 → List (Pair R))} (hv : A.Valid MT)
    (hd : d.Fits A.m A.n splits) (hrun : ∀ x < cdiv A.n 32, ∀ split < splits, ∀ warp < 4,
      run x split warp = some fun lane => tileStores value f8 MT A o x split (warp * 32 + lane.val)) :
    Exact value f8 A o d splits run (tileStores value f8 MT A o) := by
  have honce : ∀ split < splits, StoredOnce A.m A.n (cdiv A.n 32) 128 fun x tid =>
      (tileStores value f8 MT A o x split tid).flatMap Pair.cells := fun split _ => by
    simp only [cells_tileStores]
    exact storedOnce_tile hv.rows (Nat.mod_eq_zero_of_dvd hv.cols)
  refine ⟨hrun, honce, fun x _ split _ tid _ p hp => of_mem_tileStores hp, fun mem l hl split hs row hr col hc => ?_⟩
  refine storeAll_of_agree _ (fun e he hplace => ?_) (.inr ?_)
  · obtain ⟨x, hx, split', hs', tid, ht, p, hp, hput⟩ := (hl e).mp he
    obtain ⟨h0, h1⟩ := of_mem_tileStores hp
    have hin : ∀ c ∈ p.cells, c.1 < A.m ∧ c.2 < A.n := fun c hc =>
      (honce split' hs').inside x hx tid ht c (List.mem_flatMap.mpr ⟨p, hp, hc⟩)
    have hin0 := hin (p.row, p.col) List.mem_cons_self
    have hin1 := hin (p.row, p.col + 1) (List.mem_cons_of_mem _ List.mem_cons_self)
    simp only [Dest.put, Dest.place_succ hd hs' hin1.1 hin1.2, List.mem_cons, List.not_mem_nil, or_false] at hput
    obtain rfl | rfl := hput
    · obtain ⟨rfl, rfl, rfl⟩ := Dest.place_inj hd hs' hs hin0.1 hr hin0.2 hc hplace
      exact congrArg d.cast h0
    · obtain ⟨rfl, rfl, rfl⟩ := Dest.place_inj hd hs' hs hin1.1 hr hin1.2 hc hplace
      exact congrArg d.cast h1
  · obtain ⟨x, hx, tid, ht, hcount⟩ := (honce split hs).once row hr col hc
    have hone := hcount x hx tid ht
    rw [if_pos ⟨rfl, rfl⟩] at hone
    have hmem : (row, col) ∈ (tileStores value f8 MT A o x split tid).flatMap Pair.cells :=
      List.count_pos_iff.mp (by omega)
    obtain ⟨p, hp, hcell⟩ := List.mem_flatMap.mp hmem
    have hin : ∀ c ∈ p.cells, c.1 < A.m ∧ c.2 < A.n := fun c hc =>
      (honce split hs).inside x hx tid ht c (List.mem_flatMap.mpr ⟨p, hp, hc⟩)
    have hin1 := hin (p.row, p.col + 1) (List.mem_cons_of_mem _ List.mem_cons_self)
    simp only [Pair.cells, List.mem_cons, List.not_mem_nil, or_false, Prod.mk.injEq] at hcell
    have hput : ∀ e ∈ d.put A.m A.n split p, e ∈ l := fun e he => (hl e).mpr ⟨x, hx, split, hs, tid, ht, p, hp, he⟩
    obtain ⟨rfl, rfl⟩ | ⟨rfl, rfl⟩ := hcell
    · exact ⟨_, hput _ List.mem_cons_self, rfl⟩
    · exact ⟨_, hput _ (List.mem_cons_of_mem _ List.mem_cons_self), Dest.place_succ hd hs hin1.1 hin1.2⟩

lemma firstCol_eq (hf : A.Fits splits) {x warp : ℕ} (hx : x < cdiv A.n 32) (hwarp : warp < 4) :
    firstCol x warp = x * 32 + warp * 8 := by
  have hn := hf.n
  have hx := (lt_cdiv_iff (by decide)).mp hx
  rw [firstCol, u32_of_lt (by omega)]
  omega

lemma serves_plain (hv : A.Valid MT) (hf : A.Fits splits) (hs : split < splits) :
    Serves A A.operands split (plainSrc A.aq A.aStride A.aRows A.asf A.asfMode A.nkb A.kbPad) where
  reads _ hk0 _ hhi :=
    Args.reads_plain hv hf hk0 (hhi.trans ((Args.kEnd_eq hf hs).trans_le (min_le_left _ _)))
  rows := rfl
  pad := rfl
  code := rfl
  sf := rfl

lemma serves_fused (hv : A.Valid MT) (hf : A.Fits splits) (hs : split < splits) {order : ℕ → ℕ → List (ℕ × ℕ)}
    (ho : A.flags &&& FUSE_QUANT ≠ 0 → A.Prologue splits order) (x : ℕ) :
    Serves A A.fusedOperands split (A.src (order x split) split) := by
  by_cases hq : A.flags &&& FUSE_QUANT ≠ 0
  · refine ⟨fun k0 hk0 hlo hhi => Args.reads_smem hv hf hq (ho hq) hs x hk0 hlo hhi, ?_, ?_, ?_, ?_⟩ <;>
      simp only [Args.src, Args.fusedOperands, if_pos hq]
  · rw [Args.src, Args.fusedOperands, if_neg hq, if_neg hq]
    exact serves_plain hv hf hs

/-- Each scale has its own place, inside of the padded size, where `swizzle_sf` puts it; those of a step follow each
other from a multiple of 4 on. The kernel computes the place as the Python module does, where it fits. -/
structure SfPlaces (r c : ℕ) : Prop where
  inside : ∀ row < r, ∀ kb < c, Py.sfOffset row kb (cdiv c 4 * 4) < paddedSize r c
  inj : ∀ row < r, ∀ kb < c, ∀ row' < r, ∀ kb' < c,
    Py.sfOffset row kb (cdiv c 4 * 4) = Py.sfOffset row' kb' (cdiv c 4 * 4) → row = row' ∧ kb = kb'
  placed : ∀ sfBits, ∀ row < r, ∀ kb < c,
    (swizzleSf r c sfBits)[Py.sfOffset row kb (cdiv c 4 * 4)]? = some (sfBits row kb)
  step : ∀ row kb, 4 ∣ kb → 4 ∣ Py.sfOffset row kb (cdiv c 4 * 4) ∧
    ∀ i < 4, Py.sfOffset row (kb + i) (cdiv c 4 * 4) = Py.sfOffset row kb (cdiv c 4 * 4) + i
  wraps : paddedSize r c ≤ 2 ^ 32 → ∀ row < r, ∀ kb < c,
    sfOffset row kb (cdiv c 4 * 4) = Py.sfOffset row kb (cdiv c 4 * 4)

/-- The kernels leave the sums of the products of their operands. -/
theorem gemm_exact (mma : Mma value f8) {d : Dest R} (hv : A.Valid MT) (hf : A.Fits splits)
    (hd : d.Fits A.m A.n splits) :
    (∃ stores, Exact value f8 A A.operands d splits (gemmBody mma MT A) stores) ∧
      (∀ order, (A.flags &&& FUSE_QUANT ≠ 0 → A.Prologue splits order) →
        ∃ stores, Exact value f8 A A.fusedOperands d splits (gemmFused mma MT A order) stores) ∧
      ∀ r c, SfPlaces r c := by
  have hn0 : ∀ {x warp}, x * 32 + warp * 8 < A.n → x * 32 + warp * 8 + 8 ≤ A.n := fun h => by
    have := hv.cols
    omega
  refine ⟨⟨_, exact_of hv hd fun x hx split hs warp hw => ?_⟩, fun order ho =>
    ⟨_, exact_of hv hd fun x hx split hs warp hw => ?_⟩, fun r c => ⟨fun row hr kb hkb => Py.sfOffset_lt hr hkb,
    fun row hr kb hkb row' hr' kb' hkb' => Py.sfOffset_inj hr hkb hr' hkb', fun sfBits row hr kb hkb =>
    getElem?_swizzleSf sfBits hr hkb, fun row kb h4 => ⟨(Py.sfOffset_step row h4 (by decide : 0 < 4)).2, fun i hi =>
    (Py.sfOffset_step row h4 hi).1⟩, fun hfit row hr kb hkb => sfOffset_eq hfit hr hkb⟩⟩
  · simp only [tileStores_lane, gemmBody, firstCol_eq hf hx hw]
    by_cases hact : x * 32 + warp * 8 < A.n
    · simp only [if_neg (not_le.mpr hact), if_pos hact, loadStep_eq]
      rw [bodyLoop_eq mma hv hf hs (hn0 hact) (serves_plain hv hf hs)]
      rfl
    · simp only [if_pos (not_lt.mp hact), if_neg hact]
  · simp only [tileStores_lane, gemmFused, firstCol_eq hf hx hw]
    by_cases hact : x * 32 + warp * 8 < A.n
    · obtain ⟨b0, hb0, hrun⟩ := kLoop_eq mma hv hf hs (hn0 hact) (serves_fused hv hf hs ho x)
      simp only [hb0, if_pos hact, Option.bind_eq_bind, Option.bind_some, hrun]
    · have hb0 : firstB A (x * 32 + warp * 8) split = some fun _ => (fun _ _ => 0, fun _ => 0) :=
        if_neg fun h => hact h.1
      simp only [hb0, if_neg hact, Option.bind_eq_bind, Option.bind_some]

/-- One row and 8 columns of ones. -/
def ones (kps flags : ℕ) : Args :=
  ⟨1, 8, 64, 32, 1, 0, kps, flags, ⟨32, fun _ => 17⟩, ⟨4, fun _ => 1⟩, ⟨256, fun _ => 17⟩, ⟨512, fun _ => 1⟩,
    fun _ _ => (fun _ => 1, 1), ⟨68, fun _ => 0⟩⟩

lemma ones_valid {kps flags : ℕ} (h : 0 < kps)
    (hsmem : flags &&& FUSE_QUANT ≠ 0 → 16 + 1 * (kps * 32 + 16) + 1 * (4 * (kps ||| 1)) ≤ 68) :
    (ones kps flags).Valid 1 where
  rows := by norm_num [ones]
  cols := by norm_num [ones]
  steps := by norm_num [ones]
  kps := h
  aq r hr := by
    rw [Nat.lt_one_iff.mp hr]
    norm_num [ones]
  asf := by norm_num [ones, Args.nkb]
  w := by norm_num [ones]
  wsf := by norm_num [ones, Args.nkb, paddedSize, cdiv]
  smem := hsmem

lemma ones_fits : (ones 1 1).Fits 1 where
  n := by decide
  k := by decide
  splits := by decide
  aq r hr := by
    rw [Nat.lt_one_iff.mp hr]
    decide
  asf := by decide
  w := by decide
  wsf := by decide
  smem _ := by decide

lemma ones_prologue : (ones 1 1).Prologue 1 fun _ split => (List.range 128).flatMap ((ones 1 1).quantise split) :=
  fun split hs => ⟨by rw [Nat.lt_one_iff.mp hs]; decide, fun x e => by simp only [List.mem_flatMap, List.mem_range]⟩

/-- All 64 products are in the sum that the quantised row leaves. -/
theorem gemm_exact_ones : (ones 1 1).dot (Nat.cast : ℕ → ℤ) Nat.cast (ones 1 1).fusedOperands 0 0 0 = 64 ∧
    ∃ stores, Exact (Nat.cast : ℕ → ℤ) Nat.cast (ones 1 1) (ones 1 1).fusedOperands .partials 1
      (gemmFused (twin Nat.cast Nat.cast) 1 (ones 1 1) fun _ split => (List.range 128).flatMap ((ones 1 1).quantise split))
      stores := by
  have hd : (Dest.partials : Dest ℤ).Fits (ones 1 1).m (ones 1 1).n 1 := show 1 * 1 * 8 ≤ 2 ^ 32 by decide
  have hv : (ones 1 1).Valid 1 := ones_valid one_pos fun _ => by decide
  exact ⟨by decide, (gemm_exact (twin Nat.cast Nat.cast) hv ones_fits hd).2.1 _ fun _ => ones_prologue⟩

/-- A split of 2 ^ 26 steps has none, since its length in 32 bits is 0. -/
theorem gemm_wraps : (ones (2 ^ 26) 0).Valid 1 ∧ ¬∃ stores, Exact (Nat.cast : ℕ → ℤ) Nat.cast (ones (2 ^ 26) 0)
    (ones (2 ^ 26) 0).operands .partials 1 (gemmBody (twin Nat.cast Nat.cast) 1 (ones (2 ^ 26) 0)) stores := by
  refine ⟨ones_valid (by decide) fun h => absurd rfl h, fun ⟨stores, h⟩ => ?_⟩
  have hrun : gemmBody (twin (Nat.cast : ℕ → ℤ) Nat.cast) 1 (ones (2 ^ 26) 0) 0 0 0 =
      some (storePairs 1 0 fun _ _ _ => 0) := rfl
  have hstores := Option.some.inj (hrun.symm.trans (h.loads 0 (by decide) 0 (by decide) 0 (by decide)))
  have hmem : (⟨0, 0, 0, 0⟩ : Pair ℤ) ∈ stores 0 0 0 := by
    have hlane := congrFun hstores 0
    rw [Fin.val_zero] at hlane
    rw [← hlane]
    exact List.mem_cons_self
  have hsum := (h.sums 0 (by decide) 0 (by decide) 0 (by decide) _ hmem).1
  have hdot : (ones (2 ^ 26) 0).dot (Nat.cast : ℕ → ℤ) Nat.cast (ones (2 ^ 26) 0).operands 0 0 0 = 64 := by decide
  exact absurd (hsum.trans hdot) (by decide)

end SuffixHybrid.NvGemm
