import SuffixHybrid.HiSparse.Entries
import SuffixHybrid.HiSparse.Split

/-!
# The counts and the swap lists of a step

The valid count of a row is that of its request, whatever else the launch resolves. The swap list of a
request is split over its rows, `topK` entries a row; one row after the other they give the list back, as
`_swap_rows` copies it.
-/

namespace SuffixHybrid.HiSparse
open Lib

/-! ## The counts of a run -/

/-- The valid count of a row of a request. -/
def Launch.validOf (L : Launch) (id : ℤ) (row : ℕ) : ℤ :=
  if L.stateOf id < 0 then 0
  else (L.gidx.getD row []).countP fun t => L.residentRow (L.stateOf id).toNat t ≥ 0 ∨ L.hostRow id t ≥ 0

/-- What a run writes to the counts of its rows: their valid counts, and no swaps if it refers to no host
row. -/
structure Out.Counted (L : Launch) (r : Run) (o o' : Out) : Prop where
  valid : o'.valid = Out.fill o.valid r (L.validOf r.rid)
  swapCnt : ∃ v, o'.swapCnt = Out.fill o.swapCnt r v ∧ (¬L.Hosts r → v = fun _ => 0)

namespace Run
variable {L : Launch} {r : Run} {s s' : Store} {o o' : Out}

lemma counts_writeResident (L : Launch) (r : Run) (st : ℕ) (o : Out) :
    (o.writeResident L r st).valid = o.valid ∧ (o.writeResident L r st).swapCnt = o.swapCnt := by
  refine Prod.mk.inj (foldl_view (fun o : Out => (o.valid, o.swapCnt)) ?_ (L.tokens r) o)
  intro o e
  split
  next => rfl
  next =>
    split
    next => rfl
    next => rfl

lemma counts_swapIn {hot : ℕ} {evict : List ℤ} {acc acc' : Out × List (ℤ × Placement) × List ℤ}
    {e : (ℕ × ℤ) × ℕ} (h : swapIn L hot r evict acc e = some acc') :
    acc'.1.valid = acc.1.valid ∧ acc'.1.swapCnt = acc.1.swapCnt := by
  rw [swapIn, Option.bind_eq_bind, Option.bind_eq_some_iff] at h
  obtain ⟨slot, _, h⟩ := h
  dsimp only at h
  split at h
  next => cases h; exact ⟨rfl, rfl⟩
  next => cases h; exact ⟨rfl, rfl⟩

lemma counts_writeRef {slotOf : List (ℤ × Placement)} {loads : List ℕ} {e : ℕ × ℤ}
    (h : writeRef L r slotOf loads o e = some o') : o'.valid = o.valid ∧ o'.swapCnt = o.swapCnt := by
  rw [writeRef, Option.bind_eq_bind, Option.bind_eq_some_iff] at h
  obtain ⟨v, _, h⟩ := h
  cases v with
  | invalid => cases h; exact ⟨rfl, rfl⟩
  | hit slot => cases h; exact ⟨rfl, rfl⟩
  | miss slot =>
    dsimp only at h
    split at h
    next => cases h; exact ⟨rfl, rfl⟩
    next => cases h; exact ⟨rfl, rfl⟩

/-- Swapping in and writing the references leaves the counts alone. -/
lemma counts_resolveRefs {st : ℕ} {refs : List (ℕ × ℤ)} (h : resolveRefs L r st refs o s = some (o', s')) :
    o'.valid = o.valid ∧ ∃ v, o'.swapCnt = Out.fill o.swapCnt r v := by
  simp only [resolveRefs, Option.bind_eq_bind, Option.bind_eq_some_iff] at h
  obtain ⟨⟨o₁, slotOf, dgi⟩, hswap, o₂, hwrite, h⟩ := h
  let Same (o' : Out) : Prop := o'.valid = o.valid ∧ o'.swapCnt = o.swapCnt
  let Same' (acc : Out × List (ℤ × Placement) × List ℤ) : Prop := Same acc.1
  have hswap' : Same' (o₁, slotOf, dgi) := by
    refine run_inv (fun acc e acc' (hacc : Same' acc) hstep => ?_) ⟨rfl, rfl⟩ hswap
    obtain ⟨hvalid, hcnt⟩ := counts_swapIn hstep
    exact ⟨hvalid.trans hacc.1, hcnt.trans hacc.2⟩
  have hwrite' : Same o₂ := by
    refine run_inv (fun o₁ e o₂ (ho : Same o₁) hstep => ?_) hswap' hwrite
    obtain ⟨hvalid, hcnt⟩ := counts_writeRef hstep
    exact ⟨hvalid.trans ho.1, hcnt.trans ho.2⟩
  cases h
  exact ⟨hwrite'.1, _, congrArg (Out.fill · r _) hwrite'.2⟩

/-- What a run writes to the counts. -/
lemma resolve_counted (h : resolve L (o, s) r = some (o', s')) : Out.Counted L r o o' := by
  rw [resolve] at h
  dsimp only at h
  split at h
  next hst =>
    have hvalid : L.validOf r.rid = fun _ => 0 := funext fun row => if_pos hst
    cases h
    exact ⟨by rw [hvalid]; rfl, _, rfl, fun _ => rfl⟩
  next hst =>
    have hvalid : L.validOf r.rid = L.validCount r (L.stateOf r.rid).toNat := funext fun row => if_neg hst
    obtain ⟨hresident, hresident'⟩ := counts_writeResident L r (L.stateOf r.rid).toNat
      { o with valid := Out.fill o.valid r (L.validCount r (L.stateOf r.rid).toNat) }
    rw [← hvalid] at h hresident hresident'
    split at h
    next hfirst =>
      cases h
      exact ⟨hresident, _, congrArg (Out.fill · r fun _ => 0) hresident', fun _ => rfl⟩
    next hfirst =>
      obtain ⟨hrefs, v, hrefs'⟩ := counts_resolveRefs h
      refine ⟨hrefs.trans hresident, v, hrefs'.trans (congrArg (Out.fill · r v) hresident'), fun hnot => ?_⟩
      refine absurd ⟨Int.not_lt.mp hst, fun hnil => hfirst ?_⟩ hnot
      rw [Launch.hostRefs] at hnil
      rw [hnil, firsts_nil]

end Run

namespace Launch
variable {L : Launch} {s s' : Store} {o o' : Out}

/-- The counts of the runs stay as they are written. -/
lemma runs_counted {rs : List Run} (hdisj : rs.Pairwise fun r r' => r.stop ≤ r'.row)
    (h : rs.foldlM (Run.resolve L) (o, s) = some (o', s')) :
    (∀ r ∈ rs, (∀ row, r.row ≤ row → row < r.stop → o'.valid row = L.validOf r.rid row) ∧
      (¬L.Hosts r → ∀ row, r.row ≤ row → row < r.stop → o'.swapCnt row = 0)) ∧
      ∀ row, (∀ r ∈ rs, ¬(r.row ≤ row ∧ row < r.stop)) →
        o'.valid row = o.valid row ∧ o'.swapCnt row = o.swapCnt row := by
  induction rs generalizing o s with
  | nil =>
    cases h
    exact ⟨fun r hr => absurd hr List.not_mem_nil, fun _ _ => ⟨rfl, rfl⟩⟩
  | cons r rs ih =>
    rw [List.foldlM_cons, Option.bind_eq_bind, Option.bind_eq_some_iff] at h
    obtain ⟨⟨o₁, s₁⟩, hr, h⟩ := h
    rw [List.pairwise_cons] at hdisj
    obtain ⟨hvalid, v, hswap, hidle⟩ := Run.resolve_counted hr
    obtain ⟨hrest, hother⟩ := ih hdisj.2 h
    have hlater {row : ℕ} (hhi : row < r.stop) : ∀ r' ∈ rs, ¬(r'.row ≤ row ∧ row < r'.stop) := by
      intro r' hr' hrow
      have hle := hdisj.1 r' hr'
      omega
    constructor
    · intro r' hr'
      rcases List.mem_cons.mp hr' with rfl | hmem
      · constructor
        · intro row hlo hhi
          rw [(hother row (hlater hhi)).1, hvalid]
          exact Out.fill_of_mem ⟨hlo, hhi⟩
        · intro hnot row hlo hhi
          rw [(hother row (hlater hhi)).2, hswap, hidle hnot]
          exact Out.fill_of_mem ⟨hlo, hhi⟩
      · exact hrest r' hmem
    · intro row hrow
      obtain ⟨hvalid', hswap'⟩ := hother row fun r' hr' => hrow r' (List.mem_cons_of_mem _ hr')
      have hrow' := hrow r List.mem_cons_self
      rw [hvalid', hswap', hvalid, hswap]
      exact ⟨Out.fill_of_not hrow', Out.fill_of_not hrow'⟩

/-- The valid counts of a step. -/
lemma resolve_valid (h : L.resolve s = some (o, s')) {row : ℕ} {id : ℤ} (hid : L.requestIds[row]? = some id) :
    o.valid row = L.validOf id row := by
  obtain ⟨r, hr, hlo, hhi, rfl⟩ := runsFrom_covers 0 hid
  rw [Nat.zero_add] at hlo hhi
  exact ((runs_counted (runsFrom_pairwise _ _) h).1 r hr).1 row hlo hhi

/-- A row of a run without host references has no swaps. -/
lemma resolve_idle (h : L.resolve s = some (o, s')) {r : Run} (hr : r ∈ L.runs) (hnot : ¬L.Hosts r) {row : ℕ}
    (hlo : r.row ≤ row) (hhi : row < r.stop) : o.swapCnt row = 0 :=
  ((runs_counted (runsFrom_pairwise _ _) h).1 r hr).2 hnot row hlo hhi

end Launch

/-! ## Swap lists -/

/-- A list in pieces of `k` entries. -/
lemma flatMap_pieces {α : Type} (f : ℕ → α) (n k m : ℕ) :
    ((List.range m).flatMap fun j => (List.range (min k (n - j * k))).map fun i => f (j * k + i)) =
      (List.range (min n (m * k))).map f := by
  induction m with
  | zero => simp
  | succ m ih =>
    rw [List.range_succ, List.flatMap_append, ih, List.flatMap_singleton]
    obtain hle | hlt := Nat.le_total n (m * k)
    · have hnone : n - m * k = 0 := Nat.sub_eq_zero_of_le hle
      rw [hnone, Nat.min_zero, List.range_zero, List.map_nil, List.append_nil, Nat.succ_mul]
      congr 2
      omega
    · have hsum : min n ((m + 1) * k) = m * k + min k (n - m * k) := by
        rw [Nat.succ_mul]
        omega
      rw [hsum, List.range_add, List.map_append, List.map_map, Nat.min_eq_right hlt]
      rfl

/-- The rows of a list between two bounds. -/
lemma filter_eq_range' {rows : List ℕ} (hrows : rows.Pairwise (· < ·)) {lo hi : ℕ}
    (h : ∀ row, lo ≤ row → row < hi → row ∈ rows) :
    (rows.filter fun row => lo ≤ row ∧ row < hi) = List.range' lo (hi - lo) := by
  refine (hrows.filter _).eq_of_mem_iff List.pairwise_lt_range' fun row => ?_
  rw [List.mem_filter, List.mem_range'_1, decide_eq_true_iff]
  constructor
  · rintro ⟨_, hlo, hhi⟩
    omega
  · rintro ⟨hlo, hhi⟩
    exact ⟨h row hlo (by omega), hlo, by omega⟩

namespace Out
variable {L : Launch} {o : Out} {topK : ℕ}

lemma swaps_cons (o : Out) (topK row : ℕ) (rows : List ℕ) :
    o.swaps topK (row :: rows) = ((List.range (o.swapCnt row).toNat).map fun i =>
      (o.swapHost (row * topK + i), o.swapDev (row * topK + i))) ++ o.swaps topK rows := List.flatMap_cons

/-- Rows without swaps add nothing. -/
lemma swaps_filter {rows : List ℕ} {p : ℕ → Bool} (h : ∀ row ∈ rows, p row = false → o.swapCnt row = 0) :
    o.swaps topK (rows.filter p) = o.swaps topK rows := by
  induction rows with
  | nil => rfl
  | cons row rows ih =>
    have hrest := ih fun row' hrow' => h row' (List.mem_cons_of_mem _ hrow')
    cases hp : p row with
    | true => rw [List.filter_cons_of_pos hp, swaps_cons, swaps_cons, hrest]
    | false =>
      have hnone := h row List.mem_cons_self hp
      rw [List.filter_cons_of_neg (by simp [hp]), hrest, swaps_cons, hnone]
      rfl

end Out

namespace Run.Resolved
variable {L : Launch} {r : Run} {hot : ℕ} {dgi lru dgi' lru' : List ℤ} {o : Out} {slotOf : ℤ → ℕ}
  {swaps : List (ℤ × ℕ)}

/-- The rows of a run list what is swapped in, with the places it goes to. -/
lemma swaps_eq (h : Resolved L r hot dgi lru dgi' lru' o slotOf swaps) :
    o.swaps L.topK (List.range' r.row (r.stop - r.row)) =
      swaps.map fun x => (x.1, L.physical r.rid x.2) := by
  let entry (i : ℕ) : ℤ × ℤ := (o.swapHost (r.row * L.topK + i), o.swapDev (r.row * L.topK + i))
  have hpiece (j : ℕ) (hj : j < r.stop - r.row) : ((List.range (o.swapCnt (r.row + j)).toNat).map fun i =>
      (o.swapHost ((r.row + j) * L.topK + i), o.swapDev ((r.row + j) * L.topK + i))) =
      (List.range (min L.topK (swaps.length - j * L.topK))).map fun i => entry (j * L.topK + i) := by
    have hcount : (o.swapCnt (r.row + j)).toNat = min L.topK (swaps.length - j * L.topK) := by
      rw [h.count _ (Nat.le_add_right _ _) (by omega), swapCount]
      have hcast : ((r.row + j : ℕ) - r.row : ℤ) * L.topK = (j * L.topK : ℕ) := by
        push_cast
        ring
      omega
    rw [hcount]
    refine List.map_congr_left fun i _ => ?_
    dsimp only [entry]
    rw [Nat.add_mul, Nat.add_assoc]
  have hrange : List.range' r.row (r.stop - r.row) = (List.range (r.stop - r.row)).map (r.row + ·) := by
    rw [List.range'_eq_map_range]
  rw [Out.swaps, hrange, List.flatMap_map]
  calc ((List.range (r.stop - r.row)).flatMap fun j => (List.range (o.swapCnt (r.row + j)).toNat).map fun i =>
        (o.swapHost ((r.row + j) * L.topK + i), o.swapDev ((r.row + j) * L.topK + i)))
      = (List.range (r.stop - r.row)).flatMap fun j =>
          (List.range (min L.topK (swaps.length - j * L.topK))).map fun i => entry (j * L.topK + i) :=
        List.flatMap_congr fun j hj => hpiece j (List.mem_range.mp hj)
    _ = (List.range swaps.length).map entry := by
        rw [flatMap_pieces, Nat.min_eq_left h.fits]
    _ = swaps.map fun x => (x.1, L.physical r.rid x.2) := by
        refine List.ext_getElem? fun m => ?_
        rw [List.getElem?_map, List.getElem?_map]
        cases hx : swaps[m]? with
        | none =>
          rw [List.getElem?_eq_none (by simpa using List.getElem?_eq_none_iff.mp hx)]
          rfl
        | some x =>
          obtain ⟨hhost, hdev⟩ := h.listed m x hx
          rw [List.getElem?_range (List.getElem?_eq_some_iff.mp hx).1]
          exact congrArg some (Prod.ext hhost hdev)

end Run.Resolved

/-! ## The swap list of a request -/

namespace Launch.Grouped
variable {L : Launch} {n : ℕ} (h : L.Grouped n) {s s' : Store} {o : Out}
  (heq : L.resolve s = some (o, s')) (hres : L.Resolves s s' o)
include h heq hres

/-- What the rows of a request list: every row that the step swaps in, once, with the place of the slot that
it goes to. Rows of padding may be among them. -/
lemma swaps_request {id : ℤ} (hst : 0 ≤ L.stateOf id) {rows : List ℕ} (hsorted : rows.Pairwise (· < ·))
    (hall : ∀ row, L.requestIds[row]? = some id → row ∈ rows)
    (hpad : ∀ row ∈ rows, ∃ id', L.requestIds[row]? = some id' ∧ (id' = id ∨ L.stateOf id' < 0))
    (hown : ∀ r ∈ L.runs, L.stateOf r.rid = L.stateOf id → r.rid = id) :
    ∃ swaps : List (ℤ × ℕ), o.swaps L.topK rows = swaps.map (fun x => (x.1, L.physical id x.2)) ∧
      (swaps.map Prod.fst).Nodup ∧
      (∀ x ∈ swaps, (∃ row col, L.HostAt id row col x.1) ∧ x.1 ∉ s.dgi (L.stateOf id).toNat ∧
        (s'.dgi (L.stateOf id).toNat)[x.2]? = some x.1) ∧
      ∀ g ∈ s'.dgi (L.stateOf id).toNat, g ∈ s.dgi (L.stateOf id).toNat ∨ g ∈ swaps.map Prod.fst := by
  have hidle : ∀ row ∈ rows, (∀ r ∈ L.runs, r.rid = id → L.Hosts r → ¬(r.row ≤ row ∧ row < r.stop)) →
      o.swapCnt row = 0 := by
    intro row hrow hout
    obtain ⟨id', hid', hpad⟩ := hpad row hrow
    obtain ⟨r, hr, hlo, hhi, rfl⟩ := runsFrom_covers 0 hid'
    rw [Nat.zero_add] at hlo hhi
    refine resolve_idle heq hr (fun hhost => ?_) hlo hhi
    rcases hpad with hsame | hneg
    · exact hout r hr hsame hhost ⟨hlo, hhi⟩
    · exact absurd hhost.1 (Int.not_le.mpr hneg)
  by_cases hrun : ∃ r ∈ L.runs, r.rid = id ∧ L.Hosts r
  · obtain ⟨r, hr, rfl, hhost⟩ := hrun
    obtain ⟨slotOf, swaps, hr'⟩ := hres.resolved r hr hhost
    have hrows : o.swaps L.topK rows = swaps.map fun x => (x.1, L.physical r.rid x.2) := by
      have hfilter : ∀ row ∈ rows, decide (r.row ≤ row ∧ row < r.stop) = false → o.swapCnt row = 0 := by
        intro row hrow hout
        refine hidle row hrow fun r' hr₁ hsame hhost' => ?_
        rw [h.run_eq hr₁ hr hhost'.1 (by rw [hsame])]
        exact of_decide_eq_false hout
      rw [← Out.swaps_filter hfilter, filter_eq_range' hsorted fun row hlo hhi =>
        hall row (requestIds_of_mem hr hlo hhi), hr'.swaps_eq]
    refine ⟨swaps, hrows, hr'.nodup, fun x hx => ?_, fun g hg => ?_⟩
    · obtain ⟨hmem, hnot⟩ := (hr'.mem_iff x.1).mp (List.mem_map_of_mem hx)
      obtain ⟨e, he, hrow⟩ := List.mem_map.mp hmem
      refine ⟨⟨_, _, hrow ▸ hostAt_of_mem h.shape hr hst he⟩, hnot, ?_⟩
      rw [hr'.slot x hx, ← hrow]
      exact (hr'.mapped e he).2.1
    · obtain ⟨i, hi⟩ := List.mem_iff_getElem?.mp hg
      rw [hr'.contents] at hi
      rcases getElem?_assign (by rw [List.map_map]; exact hr'.slots_nodup) hi with hmem | ⟨_, hold⟩
      · obtain ⟨x, hx, hswap⟩ := List.mem_map.mp hmem
        cases hswap
        exact Or.inr (List.mem_map_of_mem hx)
      · exact Or.inl (List.mem_of_getElem? hold)
  · have hnone : o.swaps L.topK rows = [] := by
      rw [← Out.swaps_filter (p := fun _ => false) fun row hrow _ =>
        hidle row hrow fun r hr hsame hhost => absurd ⟨r, hr, hsame, hhost⟩ hrun, List.filter_false]
      rfl
    have hsame : s'.dgi (L.stateOf id).toNat = s.dgi (L.stateOf id).toNat := by
      refine (hres.other _ fun r hr hhost heq => hrun ⟨r, hr, ?_, hhost⟩).1
      have hstate := congrArg (Nat.cast : ℕ → ℤ) heq
      rw [Int.toNat_of_nonneg hhost.1, Int.toNat_of_nonneg hst] at hstate
      exact hown r hr hstate
    refine ⟨[], hnone, List.nodup_nil, by simp, fun g hg => Or.inl ?_⟩
    rw [← hsame]
    exact hg

end Launch.Grouped
end SuffixHybrid.HiSparse
