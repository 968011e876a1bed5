import SuffixHybrid.HiSparse.Swaps

/-!
# The passes of a step

The rows of a request in one pass lie together and are no more than `passRows`, so every pass is a launch
that fits the union rows of a pass. All passes together refer to no more rows than the hot region has slots.
So a pass evicts no slot that an earlier pass of the step used: it would take one of the slots that no pass
has used first, and when there is none left, every slot holds a row of the union and nothing is missing.
-/

namespace SuffixHybrid.HiSparse
open Lib

/-! ## The launch of a pass -/

namespace Launch
variable {L : Launch} {rows passRows passes p : ℕ}

/-- The pass of a row. -/
def passOf (L : Launch) (passRows passes : ℕ) (row : ℕ) : ℕ := residencyPass L.requestIds passRows passes row

lemma getElem?_pass (L : Launch) (passRows passes p row : ℕ) : (L.pass passRows passes p).requestIds[row]? =
    L.requestIds[row]?.map fun id => if L.passOf passRows passes row = p then id else -1 :=
  List.getElem?_mapIdx

/-- A pass has the rows of the requests that are its own. -/
lemma mem_pass_iff {row : ℕ} {id : ℤ} (hid : id ≠ -1) : (L.pass passRows passes p).requestIds[row]? = some id ↔
    L.requestIds[row]? = some id ∧ L.passOf passRows passes row = p := by
  rw [getElem?_pass, Option.map_eq_some_iff]
  constructor
  · rintro ⟨id', hid', heq⟩
    split at heq
    next hpass => exact ⟨heq ▸ hid', hpass⟩
    next => exact absurd heq.symm hid
  · rintro ⟨hrow, hpass⟩
    exact ⟨id, hrow, if_pos hpass⟩

lemma ne_of_stateOf {id : ℤ} (hst : 0 ≤ L.stateOf id) : id ≠ -1 := by
  rintro rfl
  simp [stateOf] at hst

lemma hostAt_pass_iff {id : ℤ} {row col : ℕ} {g : ℤ} : (L.pass passRows passes p).HostAt id row col g ↔
    L.HostAt id row col g ∧ L.passOf passRows passes row = p := by
  constructor
  · rintro ⟨hid, hst, hat⟩
    obtain ⟨hrow, hpass⟩ := (mem_pass_iff (ne_of_stateOf hst)).mp hid
    exact ⟨⟨hrow, hst, hat⟩, hpass⟩
  · rintro ⟨⟨hid, hst, hat⟩, hpass⟩
    exact ⟨(mem_pass_iff (ne_of_stateOf hst)).mpr ⟨hid, hpass⟩, hst, hat⟩

lemma passOf_lt (L : Launch) (passRows : ℕ) (hpasses : 0 < passes) (row : ℕ) :
    L.passOf passRows passes row < passes :=
  Nat.lt_of_le_of_lt (Nat.min_le_right _ _) (Nat.sub_one_lt_of_lt hpasses)

lemma mem_rowsOf_iff {row : ℕ} {id : ℤ} : row ∈ L.rowsOf id ↔ L.requestIds[row]? = some id := by
  rw [rowsOf, List.mem_filter, List.mem_range, beq_iff_eq]
  exact ⟨And.right, fun hrow => ⟨(List.getElem?_eq_some_iff.mp hrow).1, hrow⟩⟩

namespace Grouped
variable (h : L.Grouped rows)
include h

lemma first_eq {i k : ℕ} {id : ℤ} (hst : 0 ≤ L.stateOf id) (hi : L.requestIds[i]? = some id)
    (hk : L.requestIds[k]? = some id) (hik : i ≤ k) : first L.requestIds k = first L.requestIds i :=
  first_eq_of_same hik fun _ hlo hhi => (h.together hst hlo hhi hi hk).trans hi.symm

/-- No row of a request is clamped. -/
lemma passOf_eq (hfit : rows ≤ passes * passRows) {row : ℕ} {id : ℤ} (hst : 0 ≤ L.stateOf id)
    (hid : L.requestIds[row]? = some id) :
    L.passOf passRows passes row = (row - first L.requestIds row) / passRows := by
  have hfirst := getElem?_first (first_le L.requestIds row) (Nat.le_refl row)
  rw [hid] at hfirst
  have hlt : row - first L.requestIds row < passRows * passes := by
    have hspan := h.few hst hfirst.symm hid
    have hle := first_le L.requestIds row
    rw [Nat.mul_comm]
    omega
  exact Nat.min_eq_left (Nat.le_sub_one_of_lt (Nat.div_lt_of_lt_mul hlt))

/-- The rows of a request in a pass lie together, and there are at most `passRows` of them. -/
lemma pass (hpos : 0 < passRows) (hfit : rows ≤ passes * passRows) (p : ℕ) :
    (L.pass passRows passes p).Grouped passRows where
  shape := ⟨h.shape.columns, (List.length_mapIdx).trans h.shape.ids⟩
  together {i j k id} hst hij hjk hi hk := by
    obtain ⟨hi, hpi⟩ := (mem_pass_iff (ne_of_stateOf (L := L) hst)).mp hi
    obtain ⟨hk, hpk⟩ := (mem_pass_iff (ne_of_stateOf (L := L) hst)).mp hk
    have hj := h.together hst hij hjk hi hk
    refine (mem_pass_iff (ne_of_stateOf (L := L) hst)).mpr ⟨hj, ?_⟩
    rw [h.passOf_eq hfit hst hi] at hpi
    rw [h.passOf_eq hfit hst hk, h.first_eq hst hi hk (hij.trans hjk)] at hpk
    rw [h.passOf_eq hfit hst hj, h.first_eq hst hi hj hij]
    refine Nat.le_antisymm ?_ ?_
    · rw [← hpk]
      exact Nat.div_le_div_right (Nat.sub_le_sub_right hjk _)
    · rw [← hpi]
      exact Nat.div_le_div_right (Nat.sub_le_sub_right hij _)
  few {i k id} hst hi hk := by
    obtain ⟨hi, hpi⟩ := (mem_pass_iff (ne_of_stateOf (L := L) hst)).mp hi
    obtain ⟨hk, hpk⟩ := (mem_pass_iff (ne_of_stateOf (L := L) hst)).mp hk
    obtain hlt | hle := Nat.lt_or_ge k i
    · omega
    · have hfirst := first_le L.requestIds i
      rw [h.passOf_eq hfit hst hi] at hpi
      rw [h.passOf_eq hfit hst hk, h.first_eq hst hi hk hle, ← hpi] at hpk
      have hbelow := Nat.lt_div_mul_add (a := k - first L.requestIds i) hpos
      have habove := Nat.div_mul_le_self (i - first L.requestIds i) passRows
      rw [hpk] at hbelow
      omega
  apart {i k id id'} hst hsame hi hk := by
    obtain ⟨hi, _⟩ := (mem_pass_iff (ne_of_stateOf (L := L) hst)).mp hi
    obtain ⟨hk, _⟩ := (mem_pass_iff (ne_of_stateOf (L := L) (hsame ▸ hst))).mp hk
    exact h.apart hst hsame hi hk

/-- What the rows of a request list after a pass. -/
lemma swaps_pass (hP : (L.pass passRows passes p).Grouped passRows) {s s' : Store} {o : Out}
    (heq : (L.pass passRows passes p).resolve s = some (o, s'))
    (hres : (L.pass passRows passes p).Resolves s s' o) {id : ℤ} (hid : id ∈ L.requestIds)
    (hst : 0 ≤ L.stateOf id) : ∃ swaps : List (ℤ × ℕ),
      o.swaps L.topK (L.rowsOf id) = swaps.map (fun x => (x.1, L.physical id x.2)) ∧
      (swaps.map Prod.fst).Nodup ∧
      (∀ x ∈ swaps, (∃ row col, (L.pass passRows passes p).HostAt id row col x.1) ∧
        x.1 ∉ s.dgi (L.stateOf id).toNat ∧ (s'.dgi (L.stateOf id).toNat)[x.2]? = some x.1) ∧
      ∀ g ∈ s'.dgi (L.stateOf id).toNat, g ∈ s.dgi (L.stateOf id).toNat ∨ g ∈ swaps.map Prod.fst := by
  refine hP.swaps_request (L := L.pass passRows passes p) heq hres hst
    (List.pairwise_lt_range.filter _) ?_ ?_ ?_
  · intro row hrow
    exact mem_rowsOf_iff.mpr ((mem_pass_iff (ne_of_stateOf hst)).mp hrow).1
  · intro row hrow
    rw [getElem?_pass, mem_rowsOf_iff.mp hrow]
    refine ⟨_, rfl, ?_⟩
    split
    next => exact Or.inl rfl
    next => exact Or.inr (by simp [stateOf])
  · intro r hr hsame
    have hrow := requestIds_of_mem hr (Nat.le_refl _) (of_mem_runsFrom hr).2
    have hst' : 0 ≤ L.stateOf r.rid := hsame ▸ hst
    obtain ⟨k, hk⟩ := List.mem_iff_getElem?.mp hid
    exact h.apart hst' hsame ((mem_pass_iff (ne_of_stateOf hst')).mp hrow).1 hk

end Grouped
end Launch

/-! ## What holds after some passes -/

/-- After the passes below `p` of a step that started with `s`: the slots that have been used hold rows of
the launch, the entries of these passes are mapped to such slots, and the swap list of a request has every
row that is new in its hot region, once. -/
structure After (L : Launch) (passOf : ℕ → ℕ) (s : Store) (p : ℕ) (m : Merged) (t : Timed) : Prop where
  inv : Timed.Inv s.hot t
  states : p = 0 → m.states = []
  held : ∀ st i, 0 < t.lastUse st i →
    ∃ id row col g, L.HostAt id row col g ∧ L.stateOf id = st ∧ (t.store.dgi st)[i]? = some g
  mapped : ∀ id row col g, L.HostAt id row col g → passOf row < p →
    ∃ i, (t.store.dgi (L.stateOf id).toNat)[i]? = some g ∧ 0 < t.lastUse (L.stateOf id).toNat i ∧
      m.attn row col = L.attnOf (L.physical id i)
  valid : ∀ row id, L.requestIds[row]? = some id → passOf row < p → m.valid row = L.validOf id row
  listed : ∀ id, id ∈ L.requestIds → 0 ≤ L.stateOf id → ∀ x ∈ m.swaps L.topK (L.rowsOf id),
    ∃ i, (t.store.dgi (L.stateOf id).toNat)[i]? = some x.1 ∧ 0 < t.lastUse (L.stateOf id).toNat i ∧
      x.2 = L.physical id i
  nodup : ∀ id, id ∈ L.requestIds → 0 ≤ L.stateOf id → ((m.swaps L.topK (L.rowsOf id)).map Prod.fst).Nodup
  swapped : ∀ id, id ∈ L.requestIds → 0 ≤ L.stateOf id → ∀ g ∈ t.store.dgi (L.stateOf id).toNat,
    g ∈ s.dgi (L.stateOf id).toNat ∨ g ∈ (m.swaps L.topK (L.rowsOf id)).map Prod.fst

namespace Merged
variable {passOf : ℕ → ℕ} {m : Merged} {p : ℕ} {o : Out}

/-- The rows of a pass are taken from it. -/
lemma merge_self {row : ℕ} (h : passOf row = p) :
    (m.merge passOf p o).attn row = o.attn row ∧ (m.merge passOf p o).valid row = o.valid row := by
  rw [merge]
  split
  next => exact ⟨rfl, rfl⟩
  next => exact ⟨if_pos h, if_pos h⟩

/-- The rows of earlier passes stay. -/
lemma merge_of_lt {row : ℕ} (h : passOf row < p) :
    (m.merge passOf p o).attn row = m.attn row ∧ (m.merge passOf p o).valid row = m.valid row := by
  rw [merge, if_neg (Nat.ne_zero_of_lt h)]
  exact ⟨if_neg (Nat.ne_of_lt h), if_neg (Nat.ne_of_lt h)⟩

lemma swaps_merge (h : p = 0 → m.states = []) (topK : ℕ) (rows : List ℕ) :
    (m.merge passOf p o).swaps topK rows = m.swaps topK rows ++ o.swaps topK rows := by
  rw [merge]
  split
  next hp =>
    rw [swaps, swaps, h hp, List.flatMap_nil, List.nil_append, List.flatMap_singleton]
  next =>
    rw [swaps, swaps, List.flatMap_append, List.flatMap_singleton]

end Merged

/-! ## One pass -/

namespace After
variable {L : Launch} {rows passRows passes p : ℕ} {s : Store} {m : Merged} {t t' : Timed} {o : Out}

/-- The rows of a launch in one state row are no more than its union. -/
lemma rows_le (hL : L.Grouped rows) {id : ℤ} {row col : ℕ} {g : ℤ} (hat : L.HostAt id row col g)
    {gs : List ℤ} (hgs : gs.Nodup) (hrows : ∀ g' ∈ gs, ∃ id' row col, L.HostAt id' row col g' ∧
      L.stateOf id' = L.stateOf id) : gs.length ≤ rows * L.topK := by
  obtain ⟨r, hr, rfl, _, _, e, he, _⟩ := hat.exists_run hL.shape
  refine le_trans (List.subperm_of_subset hgs fun g' hg' => ?_).length_le
    (hL.fits.union r hr ⟨hat.2.1, List.ne_nil_of_mem he⟩)
  obtain ⟨id', row', col', hat', hst⟩ := hrows g' hg'
  obtain ⟨r', hr', rfl, _, _, e', he', _, rfl⟩ := hat'.exists_run hL.shape
  rw [hL.run_eq hr' hr hat'.2.1 hst] at he'
  exact List.mem_dedup.mpr (List.mem_map_of_mem he')

/-- A slot that an earlier pass used keeps its row. -/
lemma stays (h : After L (L.passOf passRows passes) s p m t) (hL : L.Grouped rows)
    (hP : (L.pass passRows passes p).Grouped passRows) (hhot : rows * L.topK ≤ s.hot)
    (hres : (L.pass passRows passes p).Resolves t.store t'.store o) (hkept : t'.store.Kept)
    (hsame : t'.store.hot = s.hot)
    (hleast : ∀ st i j : ℕ, j < t.store.hot → (t'.store.dgi st)[i]? ≠ (t.store.dgi st)[i]? →
      ¬(L.pass passRows passes p).Uses (t'.store.dgi st) st j → t.lastUse st i ≤ t.lastUse st j)
    {st i : ℕ} (hused : 0 < t.lastUse st i) : (t'.store.dgi st)[i]? = (t.store.dgi st)[i]? := by
  by_contra hchanged
  obtain ⟨id, row, col, g, hat, hst, hin⟩ := h.held st i hused
  obtain rfl : (L.stateOf id).toNat = st := by rw [hst, Int.toNat_natCast]
  have hids {id' : ℤ} (hst' : L.stateOf id' = ((L.stateOf id).toNat : ℕ)) : L.stateOf id' = L.stateOf id := by
    rw [hst', Int.toNat_of_nonneg hat.2.1]
  -- every slot holds a row of the request, but none holds the one that was evicted
  have hall (j : ℕ) (hj : j < s.hot) : ∃ g', (t'.store.dgi (L.stateOf id).toNat)[j]? = some g' ∧ g' ≠ g ∧
      ∃ id' row col, L.HostAt id' row col g' ∧ L.stateOf id' = L.stateOf id := by
    by_cases huses : (L.pass passRows passes p).Uses (t'.store.dgi (L.stateOf id).toNat)
        (L.stateOf id).toNat j
    · obtain ⟨id', row', col', g', hat', hst', hin'⟩ := (Launch.uses_iff_hostAt hP.shape).mp huses
      refine ⟨g', hin', ?_, id', row', col', (Launch.hostAt_pass_iff.mp hat').1, hids hst'⟩
      rintro rfl
      have hstate : L.stateOf id' = L.stateOf id := hids hst'
      refine hchanged ?_
      rw [hin, ← hstate]
      exact hP.stays hres hat' (hstate ▸ hin)
    · have hlast := hleast _ i j (h.inv.hot ▸ hj) hchanged huses
      obtain ⟨id', row', col', g', hat', hst', hin'⟩ := h.held _ j (Nat.lt_of_lt_of_le hused hlast)
      have hsame' : (t'.store.dgi (L.stateOf id).toNat)[j]? = (t.store.dgi (L.stateOf id).toNat)[j]? := by
        by_contra hother
        exact huses (hP.uses_of_changed hres h.inv.kept hother)
      refine ⟨g', hsame'.trans hin', ?_, id', row', col', hat', hids hst'⟩
      rintro rfl
      obtain rfl := (h.inv.kept _).injective i j _ hin hin' hat.nonneg
      exact hchanged hsame'
  have hlen := (hkept (L.stateOf id).toNat).length
  have hmem (g' : ℤ) (hg' : g' ∈ t'.store.dgi (L.stateOf id).toNat) : g' ≠ g ∧
      ∃ id' row col, L.HostAt id' row col g' ∧ L.stateOf id' = L.stateOf id := by
    obtain ⟨j, hj, rfl⟩ := List.mem_iff_getElem.mp hg'
    obtain ⟨g', hin', hne, hrow⟩ := hall j (by omega)
    rw [List.getElem?_eq_getElem hj, Option.some_inj] at hin'
    exact hin' ▸ ⟨hne, hrow⟩
  have hnodup : (g :: t'.store.dgi (L.stateOf id).toNat).Nodup := by
    refine List.nodup_cons.mpr ⟨fun hg => (hmem g hg).1 rfl, ?_⟩
    refine List.nodup_iff_getElem?_ne_getElem?.mpr fun j k hjk hk heq => ?_
    obtain ⟨_, _, _, _, hat', _⟩ := hmem _ (List.getElem_mem hk)
    have hkin := List.getElem?_eq_getElem hk
    exact Nat.ne_of_lt hjk ((hkept _).injective j k _ (heq.trans hkin) hkin hat'.nonneg)
  have hle := rows_le hL hat hnodup fun g' hg' => by
    rcases List.mem_cons.mp hg' with rfl | hg'
    · exact ⟨id, row, col, hat, rfl⟩
    · exact (hmem g' hg').2
  rw [List.length_cons] at hle
  omega

/-- The times after a pass. -/
lemma lastUse_op {L : Launch} (ht : t.op (.resolve L) = some t') (st i : ℕ) :
    t'.lastUse st i = if L.Uses (t'.store.dgi st) st i then t.now + 1 else t.lastUse st i := by
  obtain ⟨s', _, rfl⟩ := Option.map_eq_some_iff.mp ht
  rfl

/-- One pass. -/
lemma next (h : After L (L.passOf passRows passes) s p m t) (hL : L.Grouped rows)
    (hP : (L.pass passRows passes p).Grouped passRows) (hhot : rows * L.topK ≤ s.hot)
    (hle : passRows ≤ rows) : ∃ o t', (L.pass passRows passes p).resolve t.store = some (o, t'.store) ∧
      After L (L.passOf passRows passes) s (p + 1) (m.merge (L.passOf passRows passes) p o) t' := by
  have hunion : passRows * L.topK ≤ s.hot := (Nat.mul_le_mul_right _ hle).trans hhot
  have hfits : (Op.resolve (L.pass passRows passes p)).Fits s.hot (passRows * L.topK) := hP.fits
  obtain ⟨t', ht, hinv, o, heq, hres, hleast⟩ := h.inv.op hunion hfits
  have hstays {st i : ℕ} (hused : 0 < t.lastUse st i) :
      (t'.store.dgi st)[i]? = (t.store.dgi st)[i]? :=
    h.stays hL hP hhot hres hinv.kept hinv.hot hleast hused
  have hlater {st i : ℕ} (hused : 0 < t.lastUse st i) : 0 < t'.lastUse st i := by
    rw [lastUse_op ht]
    split
    next => exact Nat.succ_pos _
    next => exact hused
  have hnow {id : ℤ} {row col : ℕ} {g : ℤ} {i : ℕ} (hat : (L.pass passRows passes p).HostAt id row col g)
      (hin : (t'.store.dgi (L.stateOf id).toNat)[i]? = some g) :
      0 < t'.lastUse (L.stateOf id).toNat i := by
    rw [lastUse_op ht, if_pos]
    · exact Nat.succ_pos _
    · exact (Launch.uses_iff_hostAt hP.shape).mpr
        ⟨id, row, col, g, hat, (Int.toNat_of_nonneg hat.2.1).symm, hin⟩
  have hpassOf {row : ℕ} (hrow : L.passOf passRows passes row < p + 1) :
      L.passOf passRows passes row < p ∨ L.passOf passRows passes row = p :=
    Nat.lt_or_eq_of_le (Nat.le_of_lt_succ hrow)
  refine ⟨o, t', heq, hinv, fun hp => absurd hp (Nat.succ_ne_zero p), ?_, ?_, ?_, ?_, ?_, ?_⟩
  · intro st i hused
    rw [lastUse_op ht] at hused
    split at hused
    next huses =>
      obtain ⟨id, row, col, g, hat, hst, hin⟩ := (Launch.uses_iff_hostAt hP.shape).mp huses
      exact ⟨id, row, col, g, (Launch.hostAt_pass_iff.mp hat).1, hst, hin⟩
    next =>
      obtain ⟨id, row, col, g, hat, hst, hin⟩ := h.held st i hused
      exact ⟨id, row, col, g, hat, hst, (hstays hused).trans hin⟩
  · intro id row col g hat hrow
    rcases hpassOf hrow with hlt | hself
    · obtain ⟨i, hin, hused, hattn⟩ := h.mapped id row col g hat hlt
      exact ⟨i, (hstays hused).trans hin, hlater hused, (congrFun (Merged.merge_of_lt hlt).1 col).trans hattn⟩
    · have hat' := Launch.hostAt_pass_iff.mpr ⟨hat, hself⟩
      obtain ⟨i, _, hin, hattn⟩ := hP.mapped hres hat'
      exact ⟨i, hin, hnow hat' hin, (congrFun (Merged.merge_self hself).1 col).trans hattn⟩
  · intro row id hid hrow
    rcases hpassOf hrow with hlt | hself
    · rw [(Merged.merge_of_lt hlt).2]
      exact h.valid row id hid hlt
    · rw [(Merged.merge_self hself).2]
      have hid' : (L.pass passRows passes p).requestIds[row]? = some id := by
        rw [Launch.getElem?_pass, hid, Option.map_some, if_pos hself]
      exact Launch.resolve_valid heq hid'
  · intro id hid hst x hx
    obtain ⟨swaps, hswaps, _, hnew, _⟩ := hL.swaps_pass hP heq hres hid hst
    rw [Merged.swaps_merge h.states, List.mem_append, hswaps] at hx
    rcases hx with hx | hx
    · obtain ⟨i, hin, hused, hplace⟩ := h.listed id hid hst x hx
      exact ⟨i, (hstays hused).trans hin, hlater hused, hplace⟩
    · obtain ⟨y, hy, rfl⟩ := List.mem_map.mp hx
      obtain ⟨⟨row, col, hat⟩, _, hin⟩ := hnew y hy
      exact ⟨y.2, hin, hnow hat hin, rfl⟩
  · intro id hid hst
    obtain ⟨swaps, hswaps, hnodup, hnew, _⟩ := hL.swaps_pass hP heq hres hid hst
    rw [Merged.swaps_merge h.states, hswaps, List.map_append, List.map_map]
    refine (h.nodup id hid hst).append hnodup fun g hold hg => ?_
    obtain ⟨x, hx, rfl⟩ := List.mem_map.mp hold
    obtain ⟨y, hy, hsame⟩ := List.mem_map.mp hg
    obtain ⟨i, hin, _⟩ := h.listed id hid hst x hx
    refine (hnew y hy).2.1 ?_
    rw [show y.1 = x.1 from hsame]
    exact List.mem_of_getElem? hin
  · intro id hid hst g hg
    obtain ⟨swaps, hswaps, _, _, hall⟩ := hL.swaps_pass hP heq hres hid hst
    rw [Merged.swaps_merge h.states, hswaps, List.map_append, List.map_map, List.mem_append]
    rcases hall g hg with hold | hnew
    · exact (h.swapped id hid hst g hold).imp_right Or.inl
    · exact Or.inr (Or.inr hnew)

/-- All passes below `n`. -/
lemma run (hL : L.Grouped rows) (hP : ∀ p, (L.pass passRows passes p).Grouped passRows)
    (hhot : rows * L.topK ≤ s.hot) (hle : passRows ≤ rows) (hs : s.Kept) (n : ℕ) :
    ∃ m t, (List.range n).foldlM (fun (acc : Merged × Store) p => do
        let (o, s) ← (L.pass passRows passes p).resolve acc.2
        some (acc.1.merge (L.passOf passRows passes) p o, s))
        (⟨Out.empty.attn, Out.empty.valid, []⟩, s) = some (m, t.store) ∧
      After L (L.passOf passRows passes) s n m t := by
  induction n with
  | zero =>
    refine ⟨_, Timed.start s, rfl, Timed.Inv.start hs, fun _ => rfl, fun _ _ hused => ?_, ?_, ?_, ?_, ?_, ?_⟩
    · exact absurd hused (Nat.lt_irrefl 0)
    · exact fun _ row _ _ _ hrow => absurd hrow (Nat.not_lt_zero _)
    · exact fun row _ _ hrow => absurd hrow (Nat.not_lt_zero _)
    · exact fun _ _ _ x hx => absurd hx List.not_mem_nil
    · exact fun _ _ _ => List.nodup_nil
    · exact fun _ _ _ g hg => Or.inl hg
  | succ n ih =>
    obtain ⟨m, t, heq, h⟩ := ih
    obtain ⟨o, t', hpass, h'⟩ := h.next hL (hP n) hhot hle
    refine ⟨_, t', ?_, h'⟩
    rw [List.range_succ, List.foldlM_append, heq, Option.bind_eq_bind, Option.bind_some, List.foldlM_cons, hpass]
    rfl

end After

/-! ## A step -/

/-- The rows of a pass, and their union, fit the shared memory. -/
lemma residencyPassRows_spec {rows topK hot available passRows : ℕ}
    (h : residencyPassRows rows topK hot available = passRows) (hpos : passRows ≠ 0) :
    passRows ≤ rows ∧ smemBytes (passRows * topK) hot ≤ available := by
  rw [residencyPassRows, Option.getD_eq_iff] at h
  rcases h with h | ⟨_, h⟩
  · have hmem := List.mem_of_find?_eq_some h
    rw [List.mem_reverse, List.mem_range'_1] at hmem
    have hfits := List.find?_some h
    exact ⟨by omega, of_decide_eq_true hfits⟩
  · exact absurd h.symm hpos

lemma le_passCount_mul {rows passRows : ℕ} (hpos : 0 < passRows) : rows ≤ passCount rows passRows * passRows := by
  have h := Nat.lt_div_mul_add (a := rows + passRows - 1) hpos
  rw [passCount]
  omega

namespace Launch
variable {L : Launch} {rows passRows passes : ℕ}

/-- One pass is the whole launch. -/
lemma pass_one (L : Launch) (passRows : ℕ) : L.pass passRows 1 0 = L := by
  have hids : (L.pass passRows 1 0).requestIds = L.requestIds := by
    refine List.ext_getElem? fun row => ?_
    rw [getElem?_pass]
    have hpass : L.passOf passRows 1 row = 0 := Nat.min_zero _
    simp only [hpass, if_true, Option.map_id']
  exact congrArg (fun ids => { L with requestIds := ids }) hids

lemma resolveResidency_eq (L : Launch) (hpos : 0 < passRows) (hle : passRows ≤ rows) (s : Store) :
    L.resolveResidency rows passRows s = L.resolvePasses passRows (passCount rows passRows) s := by
  rw [resolveResidency]
  split
  next hone =>
    obtain rfl := Nat.le_antisymm hone hle
    have hcount : passCount rows rows = 1 := by
      rw [passCount, Nat.div_eq_of_lt_le]
      · omega
      · omega
    rw [hcount, resolvePasses, List.range_one, List.foldlM_cons, pass_one]
    cases L.resolve s with
    | none => rfl
    | some r => rfl
  next => rfl

/-- What a step in passes gives: an entry that refers to a host row is mapped to the slot that holds this
row at the end of the step; a row that the request did not have in its hot region is swapped in once over
all passes, and what is swapped in goes to the slot that holds it at the end. -/
structure ResolvesSplit (L : Launch) (s s' : Store) (m : Merged) : Prop where
  mapped : ∀ id row col g, L.HostAt id row col g → ∃ slot, slot < s.hot ∧
    (s'.dgi (L.stateOf id).toNat)[slot]? = some g ∧ m.attn row col = L.attnOf (L.physical id slot)
  once : ∀ id row col g, L.HostAt id row col g → g ∉ s.dgi (L.stateOf id).toNat →
    ((m.swaps L.topK (L.rowsOf id)).map Prod.fst).count g = 1
  copied : ∀ id, id ∈ L.requestIds → 0 ≤ L.stateOf id → ∀ x ∈ m.swaps L.topK (L.rowsOf id),
    ∃ slot, slot < s.hot ∧ (s'.dgi (L.stateOf id).toNat)[slot]? = some x.1 ∧ x.2 = L.physical id slot

/-- After the last pass. -/
lemma resolvesSplit_of_after {s : Store} {m : Merged} {t : Timed}
    (h : After L (L.passOf passRows passes) s passes m t) (hpasses : 0 < passes) :
    L.ResolvesSplit s t.store m where
  mapped id row col g hat := by
    obtain ⟨i, hin, _, hattn⟩ := h.mapped id row col g hat (L.passOf_lt passRows hpasses row)
    have hlt := (List.getElem?_eq_some_iff.mp hin).1
    rw [(h.inv.kept _).length, h.inv.hot] at hlt
    exact ⟨i, hlt, hin, hattn⟩
  once id row col g hat hnew := by
    have hid := List.mem_of_getElem? hat.1
    obtain ⟨i, hin, _⟩ := h.mapped id row col g hat (L.passOf_lt passRows hpasses row)
    refine List.count_eq_one_of_mem (h.nodup id hid hat.2.1) ?_
    exact (h.swapped id hid hat.2.1 g (List.mem_of_getElem? hin)).resolve_left hnew
  copied id hid hst x hx := by
    obtain ⟨i, hin, _, hplace⟩ := h.listed id hid hst x hx
    have hlt := (List.getElem?_eq_some_iff.mp hin).1
    rw [(h.inv.kept _).length, h.inv.hot] at hlt
    exact ⟨i, hlt, hin, hplace⟩

/-- A row of a request is active in one pass. -/
lemma active_once (hpasses : 0 < passes) {row : ℕ} {id : ℤ} (hrow : L.requestIds[row]? = some id)
    (hid : id ≠ -1) : ∃! p, p < passes ∧ (L.pass passRows passes p).requestIds[row]? = some id := by
  refine ⟨L.passOf passRows passes row, ⟨L.passOf_lt passRows hpasses row, ?_⟩, ?_⟩
  · exact (mem_pass_iff hid).mpr ⟨hrow, rfl⟩
  · exact fun p hp => ((mem_pass_iff hid).mp hp.2).2.symm

end Launch

/-- The residency of a step in passes is that of one pass: every row is active in one pass, the union of a
pass fits the shared memory, and the step returns a consistent store, with every entry mapped to a slot that
no later pass took, every missing row swapped in once, and the valid counts of the whole launch. -/
theorem split_residency {L : Launch} {s : Store} (hs : s.Kept) {rows available passRows : ℕ}
    (hL : L.Grouped rows) (hhot : rows * L.topK ≤ s.hot)
    (hpass : residencyPassRows rows L.topK s.hot available = passRows) (hpos : passRows ≠ 0) :
    (∀ (row : ℕ) (id : ℤ), L.requestIds[row]? = some id → id ≠ -1 →
      ∃! p, p < passCount rows passRows ∧
        (L.pass passRows (passCount rows passRows) p).requestIds[row]? = some id) ∧
    (∀ p, (L.pass passRows (passCount rows passRows) p).Fits (passRows * L.topK)) ∧
    smemBytes (passRows * L.topK) s.hot ≤ available ∧
    ∃ m s' o s'', L.resolveResidency rows passRows s = some (m, s') ∧ s'.Kept ∧ L.ResolvesSplit s s' m ∧
      L.resolve s = some (o, s'') ∧ ∀ row, row < L.requestIds.length → m.valid row = o.valid row := by
  obtain ⟨hle, hsmem⟩ := residencyPassRows_spec hpass hpos
  have hpos' := Nat.pos_of_ne_zero hpos
  have hfit : rows ≤ passCount rows passRows * passRows := le_passCount_mul hpos'
  have hpasses : 0 < passCount rows passRows :=
    Nat.pos_of_ne_zero fun h => by rw [h] at hfit; omega
  have hP := hL.pass hpos' hfit
  obtain ⟨m, t, heq, h⟩ := After.run hL hP hhot hle hs (passCount rows passRows)
  obtain ⟨o, s'', hone, _⟩ := hL.fits.resolve hhot hs
  refine ⟨fun row id => Launch.active_once hpasses, fun p => (hP p).fits, hsmem, m, t.store, o, s'', ?_,
    h.inv.kept, Launch.resolvesSplit_of_after h hpasses, hone, fun row hrow => ?_⟩
  · rw [L.resolveResidency_eq hpos' hle]
    exact heq
  · have hid := List.getElem?_eq_getElem hrow
    rw [h.valid row _ hid (L.passOf_lt passRows hpasses row), Launch.resolve_valid hone hid]

/-- A store with four slots a request. -/
def wideStore : Store := ⟨4, fun _ => [5, 7, 11, 12], fun _ => [1, 0, 3, 2]⟩

lemma wideStore_kept : wideStore.Kept := by
  have hperm : ([1, 0, 3, 2] : List ℤ).Perm (Run.slots 4) := by decide
  refine fun st => ⟨rfl, hperm, fun i j b hi hj _ => ?_⟩
  have hnodup : ([5, 7, 11, 12] : List ℤ).Nodup := by decide
  exact (List.getElem?_inj (List.getElem?_eq_some_iff.mp hi).1 hnodup).mp (hi.trans hj.symm)

lemma smallLaunch_grouped : smallLaunch.Grouped 2 := by
  have hrow {i : ℕ} {id : ℤ} (hi : smallLaunch.requestIds[i]? = some id) : i < 2 ∧ id = 0 := by
    obtain ⟨hlt, rfl⟩ := List.getElem?_eq_some_iff.mp hi
    exact ⟨hlt, List.eq_of_mem_replicate (n := 2) (List.getElem_mem hlt)⟩
  have hid {i : ℕ} (hi : i < 2) : smallLaunch.requestIds[i]? = some 0 :=
    List.getElem?_replicate_of_lt (n := 2) hi
  refine ⟨⟨by decide, rfl⟩, fun _ _ hjk _ hk => ?_, fun _ _ hk => ?_, fun _ _ hi hk => ?_⟩
  · obtain ⟨hlt, rfl⟩ := hrow hk
    exact hid (Nat.lt_of_le_of_lt hjk hlt)
  · exact Nat.lt_add_left _ (hrow hk).1
  · exact (hrow hi).2.trans (hrow hk).2.symm

theorem split_residency_small :
    (∀ (row : ℕ) (id : ℤ), smallLaunch.requestIds[row]? = some id → id ≠ -1 →
      ∃! p, p < passCount 2 1 ∧ (smallLaunch.pass 1 (passCount 2 1) p).requestIds[row]? = some id) ∧
    (∀ p, (smallLaunch.pass 1 (passCount 2 1) p).Fits (1 * smallLaunch.topK)) ∧
    smemBytes (1 * smallLaunch.topK) wideStore.hot ≤ 80 ∧
    ∃ m s' o s'', smallLaunch.resolveResidency 2 1 wideStore = some (m, s') ∧ s'.Kept ∧
      smallLaunch.ResolvesSplit wideStore s' m ∧ smallLaunch.resolve wideStore = some (o, s'') ∧
      ∀ row, row < smallLaunch.requestIds.length → m.valid row = o.valid row :=
  split_residency wideStore_kept smallLaunch_grouped (by decide) (by decide) (by decide)

end SuffixHybrid.HiSparse
