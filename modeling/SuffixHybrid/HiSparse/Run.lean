import SuffixHybrid.HiSparse.Walk
import SuffixHybrid.Lib.Map

/-!
# One run of a step

What `reference_resolve` does for the rows of one request. `Resolved` says it for a run with host
references, from the two rows of the store before and after it and the outputs; `Out.Same` says what
the run leaves alone. Later runs write other rows, so `Resolved` stays true of them
(`Resolved.of_same`).
-/

namespace SuffixHybrid.HiSparse
open Lib

/-! ## Positions -/

/-- Every row has `topK` entries, and a request id. -/
structure Launch.Shape (L : Launch) : Prop where
  columns : ∀ row ∈ L.gidx, row.length = L.topK
  ids : L.requestIds.length = L.gidx.length

namespace Launch
variable {L : Launch} {r : Run} {st : ℕ}

lemma length_flatten_le {α : Type} {n : ℕ} {rows : List (List α)} (h : ∀ row ∈ rows, row.length = n) :
    rows.flatten.length = rows.length * n := by
  induction rows with
  | nil => rw [List.flatten_nil, List.length_nil, List.length_nil, Nat.zero_mul]
  | cons row rows ih =>
    rw [List.flatten_cons, List.length_append, h row List.mem_cons_self,
      ih fun row' hrow' => h row' (List.mem_cons_of_mem _ hrow'), List.length_cons, Nat.succ_mul, Nat.add_comm]

lemma length_tokens_le (hL : L.Shape) (r : Run) : (L.tokens r).length ≤ (r.stop - r.row) * L.topK := by
  have hcolumns : ∀ row ∈ (L.gidx.drop r.row).take (r.stop - r.row), row.length = L.topK := fun row hrow =>
    hL.columns row (List.mem_of_mem_drop (List.mem_of_mem_take hrow))
  rw [tokens, List.length_zipIdx, length_flatten_le hcolumns]
  exact Nat.mul_le_mul_right _ (List.length_take_le _ _)

lemma lt_of_mem_tokens (hL : L.Shape) {e : ℤ × ℕ} (he : e ∈ L.tokens r) :
    e.2 < (r.stop - r.row) * L.topK := by
  refine Nat.lt_of_lt_of_le ?_ (length_tokens_le hL r)
  rw [tokens, List.length_zipIdx]
  exact List.snd_lt_of_mem_zipIdx he

/-- A position of a run is in one of its rows. -/
lemma place_mem {p : ℕ} (hp : p < (r.stop - r.row) * L.topK) :
    r.row ≤ (L.place r p).1 ∧ (L.place r p).1 < r.stop := by
  have hpos : 0 < L.topK := Nat.pos_of_ne_zero fun h => by simp [h] at hp
  have hlt := (Nat.div_lt_iff_lt_mul hpos).mpr hp
  exact ⟨Nat.le_add_right _ _, Nat.add_lt_of_lt_sub' hlt⟩

lemma place_inj {p q : ℕ} (h : L.place r p = L.place r q) : p = q := by
  have hdiv := Nat.add_left_cancel (congrArg Prod.fst h)
  have hmod : p % L.topK = q % L.topK := congrArg Prod.snd h
  rw [← Nat.div_add_mod p L.topK, ← Nat.div_add_mod q L.topK, hdiv, hmod]

lemma mem_refs_iff {e : ℕ × ℤ} : e ∈ L.refs r st ↔
    ∃ t, (t, e.1) ∈ L.tokens r ∧ ¬(L.residentRow st t ≥ 0 ∨ L.hostRow r.rid t < 0) ∧
      L.hostRow r.rid t = e.2 := by
  rw [refs, List.mem_filterMap]
  constructor
  · rintro ⟨⟨t, p⟩, hmem, heq⟩
    rw [Option.ite_none_left_eq_some, Option.some_inj] at heq
    obtain ⟨hcond, rfl⟩ := heq
    exact ⟨t, hmem, hcond, rfl⟩
  · rintro ⟨t, hmem, hcond, heq⟩
    refine ⟨(t, e.1), hmem, ?_⟩
    rw [if_neg hcond, heq]

lemma refs_nonneg : ∀ e ∈ L.refs r st, 0 ≤ e.2 := by
  intro e he
  obtain ⟨t, _, hcond, heq⟩ := mem_refs_iff.mp he
  rw [← heq]
  exact Int.not_lt.mp fun hlt => hcond (Or.inr hlt)

lemma lt_of_mem_refs (hL : L.Shape) : ∀ e ∈ L.refs r st, e.1 < (r.stop - r.row) * L.topK := by
  intro e he
  obtain ⟨t, hmem, _⟩ := mem_refs_iff.mp he
  exact lt_of_mem_tokens hL hmem

/-- The references are in the order of their positions. -/
lemma refs_pairwise : ((L.refs r st).map Prod.fst).Pairwise (· < ·) := by
  have hsub : ((L.refs r st).map Prod.fst).Sublist ((L.tokens r).map Prod.snd) := by
    refine map_filterMap_sublist ?_ _
    intro e e' heq
    rw [Option.ite_none_left_eq_some, Option.some_inj] at heq
    rw [← heq.2]
  refine List.Pairwise.sublist hsub ?_
  rw [tokens, List.zipIdx_map_snd]
  exact List.pairwise_lt_range'

end Launch

/-! ## What a run leaves alone -/

/-- The outputs differ in the rows of a run and in its part of the swap list only. -/
structure Out.Same (L : Launch) (r : Run) (o o' : Out) : Prop where
  row : ∀ row, ¬(r.row ≤ row ∧ row < r.stop) → o'.hot row = o.hot row ∧ o'.attn row = o.attn row ∧
    o'.valid row = o.valid row ∧ o'.swapCnt row = o.swapCnt row
  flat : ∀ f, ¬(r.row * L.topK ≤ f ∧ f < r.stop * L.topK) →
    o'.swapHost f = o.swapHost f ∧ o'.swapDev f = o.swapDev f

namespace Out
variable {L : Launch} {r : Run} {o o' o'' : Out}

lemma Same.refl (L : Launch) (r : Run) (o : Out) : Same L r o o :=
  ⟨fun _ _ => ⟨rfl, rfl, rfl, rfl⟩, fun _ _ => ⟨rfl, rfl⟩⟩

lemma Same.trans (h : Same L r o o') (h' : Same L r o' o'') : Same L r o o'' where
  row row hrow := by
    obtain ⟨h1, h2, h3, h4⟩ := h.row row hrow
    obtain ⟨h1', h2', h3', h4'⟩ := h'.row row hrow
    exact ⟨h1'.trans h1, h2'.trans h2, h3'.trans h3, h4'.trans h4⟩
  flat f hf := by
    obtain ⟨h1, h2⟩ := h.flat f hf
    obtain ⟨h1', h2'⟩ := h'.flat f hf
    exact ⟨h1'.trans h1, h2'.trans h2⟩

lemma fill_of_not {α : Type} {f v : ℕ → α} {row : ℕ} (hrow : ¬(r.row ≤ row ∧ row < r.stop)) :
    fill f r v row = f row := if_neg hrow

lemma fill_of_mem {α : Type} {f v : ℕ → α} {row : ℕ} (hrow : r.row ≤ row ∧ row < r.stop) :
    fill f r v row = v row := if_pos hrow

lemma same_pad (L : Launch) (o : Out) (r : Run) : Same L r o (o.pad L r) where
  row _ hrow := by simp only [pad, fill_of_not hrow, and_self]
  flat _ _ := ⟨rfl, rfl⟩

lemma same_valid (L : Launch) (r : Run) (o : Out) (v : ℕ → ℤ) :
    Same L r o { o with valid := fill o.valid r v } where
  row _ hrow := ⟨rfl, rfl, fill_of_not hrow, rfl⟩
  flat _ _ := ⟨rfl, rfl⟩

lemma same_swapCnt (L : Launch) (r : Run) (o : Out) (v : ℕ → ℤ) :
    Same L r o { o with swapCnt := fill o.swapCnt r v } where
  row _ hrow := ⟨rfl, rfl, rfl, fill_of_not hrow⟩
  flat _ _ := ⟨rfl, rfl⟩

lemma same_write (o : Out) {p : ℕ} (hp : p < (r.stop - r.row) * L.topK) (phys : ℤ) :
    Same L r o (o.write L r p phys) where
  row row hrow := by
    have hne : row ≠ (L.place r p).1 := by
      rintro rfl
      exact hrow (Launch.place_mem hp)
    exact ⟨Function.update_of_ne hne _ _, Function.update_of_ne hne _ _, rfl, rfl⟩
  flat _ _ := ⟨rfl, rfl⟩

lemma same_writeResident (hL : L.Shape) (st : ℕ) (o : Out) : Same L r o (o.writeResident L r st) := by
  have hstep : ∀ (es : List (ℤ × ℕ)), es ⊆ L.tokens r → ∀ o : Out, Same L r o (es.foldl (fun o e =>
      if L.residentRow st e.1 ≥ 0 then o.write L r e.2 (L.residentRow st e.1)
      else if L.hostRow r.rid e.1 < 0 then o.write L r e.2 (-1)
      else o) o) := by
    intro es
    induction es with
    | nil => exact fun _ o => Same.refl L r o
    | cons e es ih =>
      intro hsub o
      obtain ⟨he, hes⟩ := List.cons_subset.mp hsub
      have hp := Launch.lt_of_mem_tokens hL he
      rw [List.foldl_cons]
      refine Same.trans ?_ (ih hes _)
      split
      next => exact same_write o hp _
      next =>
        split
        next => exact same_write o hp _
        next => exact Same.refl L r o
  exact hstep _ (List.Subset.refl _) o

end Out

/-! ## Swapping in -/

/-- A part of the swap list is written, from entry `k` of the run on. -/
structure Out.Swapped (L : Launch) (r : Run) (k : ℕ) (swaps : List (ℤ × ℕ)) (o o' : Out) : Prop where
  listed : ∀ m x, swaps[m]? = some x → o'.swapHost (r.row * L.topK + k + m) = x.1 ∧
    o'.swapDev (r.row * L.topK + k + m) = L.physical r.rid x.2
  other : ∀ f, ¬(r.row * L.topK + k ≤ f ∧ f < r.row * L.topK + k + swaps.length) →
    o'.swapHost f = o.swapHost f ∧ o'.swapDev f = o.swapDev f
  hot : o'.hot = o.hot
  attn : o'.attn = o.attn
  valid : o'.valid = o.valid
  swapCnt : o'.swapCnt = o.swapCnt

namespace Run
variable {L : Launch} {r : Run} {hot : ℕ}

lemma swapIn_some {evict : List ℤ} {k i : ℕ} (hk : evict[k]? = some (i : ℤ)) (hi : i < hot) (o : Out)
    (slotOf : List (ℤ × Placement)) (dgi : List ℤ) (e : ℕ × ℤ) :
    swapIn L hot r evict (o, slotOf, dgi) (e, k) = some
      ({ o with
        swapHost := Function.update o.swapHost (r.row * L.topK + k) e.2
        swapDev := Function.update o.swapDev (r.row * L.topK + k) (L.physical r.rid i) },
      (e.2, .miss i) :: slotOf, dgi.set i e.2) := by
  have hrange : 0 ≤ (i : ℤ) ∧ (i : ℤ) < hot := ⟨Int.natCast_nonneg i, Int.ofNat_lt.mpr hi⟩
  simp only [swapIn, hk, Option.bind_eq_bind, Option.bind_some, if_pos hrange, Int.toNat_natCast]

/-- The missing rows are swapped into the oldest evictable slots. -/
lemma foldlM_swapIn {evict : List ℤ} (misses : List (ℕ × ℤ)) (swaps : List (ℤ × ℕ)) (k : ℕ)
    (hrows : misses.map Prod.snd = swaps.map Prod.fst)
    (hslots : ∀ m x, swaps[m]? = some x → evict[k + m]? = some (x.2 : ℤ) ∧ x.2 < hot) (o : Out)
    (slotOf : List (ℤ × Placement)) (dgi : List ℤ) :
    ∃ o', (misses.zipIdx k).foldlM (swapIn L hot r evict) (o, slotOf, dgi) =
        some (o', (swaps.map fun x => (x.1, Placement.miss x.2)).reverse ++ slotOf,
          assign dgi (swaps.map Prod.swap)) ∧
      Out.Swapped L r k swaps o o' := by
  induction misses generalizing swaps k o slotOf dgi with
  | nil =>
    cases swaps with
    | nil => exact ⟨o, rfl, by simp, fun _ _ => ⟨rfl, rfl⟩, rfl, rfl, rfl, rfl⟩
    | cons x swaps => cases hrows
  | cons e misses ih =>
    cases swaps with
    | nil => cases hrows
    | cons x swaps =>
      obtain ⟨hx, hrows⟩ := List.cons_eq_cons.mp hrows
      obtain ⟨hk, hi⟩ := hslots 0 x rfl
      rw [Nat.add_zero] at hk
      have hlater : ∀ m y, swaps[m]? = some y → evict[k + 1 + m]? = some (y.2 : ℤ) ∧ y.2 < hot := by
        intro m y hy
        rw [Nat.add_assoc, Nat.add_comm 1 m]
        exact hslots (m + 1) y hy
      let next : Out := { o with
        swapHost := Function.update o.swapHost (r.row * L.topK + k) e.2
        swapDev := Function.update o.swapDev (r.row * L.topK + k) (L.physical r.rid x.2) }
      obtain ⟨o', heq, h⟩ :=
        ih swaps (k + 1) hrows hlater next ((e.2, .miss x.2) :: slotOf) (dgi.set x.2 e.2)
      obtain ⟨hhost, hdev⟩ := h.other (r.row * L.topK + k) (by omega)
      rw [List.zipIdx_cons, List.foldlM_cons, swapIn_some hk hi]
      refine ⟨o', ?_, ⟨?_, ?_, h.hot, h.attn, h.valid, h.swapCnt⟩⟩
      · rw [Option.bind_eq_bind, Option.bind_some, heq, hx, List.map_cons, List.reverse_cons,
          List.append_assoc, List.map_cons, assign_cons]
        rfl
      · intro m y hy
        cases m with
        | zero =>
          cases hy
          exact ⟨(hhost.trans (Function.update_self _ _ _)).trans hx, hdev.trans (Function.update_self _ _ _)⟩
        | succ m =>
          have hm := h.listed m y hy
          rw [show r.row * L.topK + (k + 1) + m = r.row * L.topK + k + (m + 1) by omega] at hm
          exact hm
      · intro f hf
        rw [List.length_cons] at hf
        obtain ⟨h1, h2⟩ := h.other f (by omega)
        have hne : f ≠ r.row * L.topK + k := by omega
        exact ⟨h1.trans (Function.update_of_ne hne _ _), h2.trans (Function.update_of_ne hne _ _)⟩

end Run

/-! ## Writing the references -/

/-- References are written with the physical rows of their slots. -/
structure Out.Placed (L : Launch) (r : Run) (slotOf : ℤ → ℕ) (refs : List (ℕ × ℤ)) (o o' : Out) :
    Prop where
  written : ∀ e ∈ refs,
    o'.hot (L.place r e.1).1 (L.place r e.1).2 = L.physical r.rid (slotOf e.2) ∧
    o'.attn (L.place r e.1).1 (L.place r e.1).2 = L.attnOf (L.physical r.rid (slotOf e.2))
  other : ∀ row i, (∀ e ∈ refs, L.place r e.1 ≠ (row, i)) →
    o'.hot row i = o.hot row i ∧ o'.attn row i = o.attn row i
  valid : o'.valid = o.valid
  swapCnt : o'.swapCnt = o.swapCnt
  swapHost : o'.swapHost = o.swapHost
  swapDev : o'.swapDev = o.swapDev

/-- A host row is found in a slot. -/
def Placement.InSlot (v : Placement) (s : ℕ) : Prop := v = .hit s ∨ v = .miss s

namespace Run
variable {L : Launch} {r : Run}

lemma write_self (o : Out) (p : ℕ) (phys : ℤ) :
    (o.write L r p phys).hot (L.place r p).1 (L.place r p).2 = phys ∧
      (o.write L r p phys).attn (L.place r p).1 (L.place r p).2 = L.attnOf phys := by
  simp only [Out.write, Function.update_self, and_self]

lemma write_of_ne (o : Out) {p row i : ℕ} (h : L.place r p ≠ (row, i)) (phys : ℤ) :
    (o.write L r p phys).hot row i = o.hot row i ∧ (o.write L r p phys).attn row i = o.attn row i := by
  simp only [Out.write]
  by_cases hrow : row = (L.place r p).1
  · subst hrow
    have hcol : i ≠ (L.place r p).2 := by
      rintro rfl
      exact h rfl
    simp only [Function.update_self, Function.update_of_ne hcol, and_self]
  · simp only [Function.update_of_ne hrow, and_self]

/-- A reference to a row in a slot is written, and a counter goes up. -/
lemma writeRef_some {slotOf : List (ℤ × Placement)} (loads : List ℕ) {e : ℕ × ℤ} {v : Placement} {s : ℕ}
    (hv : slotOf.lookup e.2 = some v) (hs : v.InSlot s) (o : Out) :
    ∃ hits misses, writeRef L r slotOf loads o e =
      some { o.write L r e.1 (L.physical r.rid s) with hits := hits, misses := misses } := by
  simp only [writeRef, hv, Option.bind_eq_bind, Option.bind_some]
  rcases hs with rfl | rfl
  · exact ⟨_, _, rfl⟩
  · split
    next heq => cases heq
    next heq => cases heq
    next heq =>
      cases heq
      split
      next => exact ⟨_, _, rfl⟩
      next => exact ⟨_, _, rfl⟩

/-- All references are written. -/
lemma foldlM_writeRef {slotOf : List (ℤ × Placement)} (loads : List ℕ) (slot : ℤ → ℕ) (refs : List (ℕ × ℤ))
    (hpos : (refs.map Prod.fst).Nodup)
    (hslots : ∀ e ∈ refs, ∃ v, slotOf.lookup e.2 = some v ∧ v.InSlot (slot e.2)) (o : Out) :
    ∃ o', refs.foldlM (writeRef L r slotOf loads) o = some o' ∧ Out.Placed L r slot refs o o' := by
  induction refs generalizing o with
  | nil => exact ⟨o, rfl, by simp, fun _ _ _ => ⟨rfl, rfl⟩, rfl, rfl, rfl, rfl⟩
  | cons e refs ih =>
    rw [List.map_cons, List.nodup_cons] at hpos
    obtain ⟨v, hv, hs⟩ := hslots e List.mem_cons_self
    obtain ⟨hits, misses, hwrite⟩ := writeRef_some (L := L) (r := r) loads hv hs o
    obtain ⟨o', heq, h⟩ := ih hpos.2 (fun e' he' => hslots e' (List.mem_cons_of_mem _ he'))
      { o.write L r e.1 (L.physical r.rid (slot e.2)) with hits := hits, misses := misses }
    refine ⟨o', ?_, ?_, ?_, h.valid, h.swapCnt, h.swapHost, h.swapDev⟩
    · rw [List.foldlM_cons, hwrite, Option.bind_eq_bind, Option.bind_some, heq]
    · intro e' he'
      rcases List.mem_cons.mp he' with rfl | hmem
      · have hlater : ∀ e ∈ refs, L.place r e.1 ≠ L.place r e'.1 := by
          intro e he hsame
          rw [← Launch.place_inj hsame] at hpos
          exact hpos.1 (List.mem_map_of_mem he)
        obtain ⟨hhot, hattn⟩ := h.other _ _ hlater
        obtain ⟨hhot', hattn'⟩ := write_self (L := L) (r := r) o e'.1 (L.physical r.rid (slot e'.2))
        exact ⟨hhot.trans hhot', hattn.trans hattn'⟩
      · exact h.written e' hmem
    · intro row i hne
      obtain ⟨hhot, hattn⟩ := h.other row i fun e' he' => hne e' (List.mem_cons_of_mem _ he')
      obtain ⟨hhot', hattn'⟩ := write_of_ne (L := L) (r := r) o (hne e List.mem_cons_self)
        (L.physical r.rid (slot e.2))
      exact ⟨hhot.trans hhot', hattn.trans hattn'⟩

end Run
end SuffixHybrid.HiSparse
