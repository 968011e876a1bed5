import SuffixHybrid.HiSparse.Run

/-!
# What a run gives

A run with host references swaps its missing rows into the least recently used slots that it does not use,
and gives every reference the slot that holds its row.
-/

namespace SuffixHybrid.HiSparse
open Lib

/-- The host references of a run in its own state row. -/
def Launch.hostRefs (L : Launch) (r : Run) : List (ℕ × ℤ) := L.refs r (L.stateOf r.rid).toNat

/-- A run that has a state row and host references. -/
def Launch.Hosts (L : Launch) (r : Run) : Prop := 0 ≤ L.stateOf r.rid ∧ L.hostRefs r ≠ []

instance (L : Launch) (r : Run) : Decidable (L.Hosts r) := inferInstanceAs (Decidable (_ ∧ _))

namespace Run

/-- A run is resolved, from the rows `dgi` and `lru` of the store to `dgi'` and `lru'`: its host rows are
given the slots `slotOf`, and `swaps` are the rows that are swapped in, with their slots. -/
structure Resolved (L : Launch) (r : Run) (hot : ℕ) (dgi lru dgi' lru' : List ℤ) (o : Out) (slotOf : ℤ → ℕ)
    (swaps : List (ℤ × ℕ)) : Prop where
  mapped : ∀ e ∈ L.hostRefs r, slotOf e.2 < hot ∧ dgi'[slotOf e.2]? = some e.2 ∧
    o.hot (L.place r e.1).1 (L.place r e.1).2 = L.physical r.rid (slotOf e.2) ∧
    o.attn (L.place r e.1).1 (L.place r e.1).2 = L.attnOf (L.physical r.rid (slotOf e.2))
  distinct : ∀ e ∈ L.hostRefs r, ∀ e' ∈ L.hostRefs r, slotOf e.2 = slotOf e'.2 ↔ e.2 = e'.2
  hit : ∀ e ∈ L.hostRefs r, e.2 ∈ dgi → dgi[slotOf e.2]? = some e.2
  /-- A slot that holds a referenced row is not taken. -/
  kept : ∀ x ∈ swaps, x.2 < hot ∧ ∀ e ∈ L.hostRefs r, dgi[x.2]? ≠ some e.2
  contents : dgi' = assign dgi (swaps.map Prod.swap)
  nodup : (swaps.map Prod.fst).Nodup
  slots_nodup : (swaps.map Prod.snd).Nodup
  mem_iff : ∀ g, g ∈ swaps.map Prod.fst ↔ g ∈ (L.hostRefs r).map Prod.snd ∧ g ∉ dgi
  slot : ∀ x ∈ swaps, x.2 = slotOf x.1
  order : (swaps.map Prod.fst).Pairwise fun g h =>
    ((L.hostRefs r).map Prod.snd).idxOf g < ((L.hostRefs r).map Prod.snd).idxOf h
  fits : swaps.length ≤ (r.stop - r.row) * L.topK
  listed : ∀ m x, swaps[m]? = some x → o.swapHost (r.row * L.topK + m) = x.1 ∧
    o.swapDev (r.row * L.topK + m) = L.physical r.rid x.2
  count : ∀ row, r.row ≤ row → row < r.stop → o.swapCnt row = swapCount L r swaps.length row
  /-- The slots that are taken are the first ones of `lru` that the run does not use. -/
  oldest : (evictable (used hot dgi (firsts (L.hostRefs r))) lru).take swaps.length =
    (swaps.map Prod.snd).map Nat.cast
  refreshed : lru' = refresh (used hot dgi (firsts (L.hostRefs r))) swaps.length lru

/-- What is written for other runs leaves a run resolved. -/
lemma Resolved.of_same {L : Launch} {r r' : Run} {hot : ℕ} {dgi lru dgi' lru' : List ℤ} {o o' : Out}
    {slotOf : ℤ → ℕ} {swaps : List (ℤ × ℕ)} (hL : L.Shape)
    (h : Resolved L r hot dgi lru dgi' lru' o slotOf swaps) (hsame : Out.Same L r' o o')
    (hstop : r.row ≤ r.stop) (hdisj : r.stop ≤ r'.row) :
    Resolved L r hot dgi lru dgi' lru' o' slotOf swaps := by
  refine ⟨?_, h.distinct, h.hit, h.kept, h.contents, h.nodup, h.slots_nodup, h.mem_iff, h.slot, h.order,
    h.fits, ?_, ?_, h.oldest, h.refreshed⟩
  · intro e he
    have hrow := Launch.place_mem (Launch.lt_of_mem_refs hL e he)
    obtain ⟨hhot, hattn, _⟩ := hsame.row (L.place r e.1).1 (by omega)
    rw [hhot, hattn]
    exact h.mapped e he
  · intro m x hx
    have hlt := (List.getElem?_eq_some_iff.mp hx).1
    have hfits := h.fits
    have hend : r.row * L.topK + (r.stop - r.row) * L.topK ≤ r'.row * L.topK := by
      rw [← Nat.add_mul]
      exact Nat.mul_le_mul_right _ (by omega)
    obtain ⟨hhost, hdev⟩ := hsame.flat (r.row * L.topK + m) (by omega)
    rw [hhost, hdev]
    exact h.listed m x hx
  · intro row hlo hhi
    rw [(hsame.row row (by omega)).2.2.2]
    exact h.count row hlo hhi

/-! ## The slots that are taken -/

/-- The missing rows with the slots that they are given. -/
def swapsOf (hot : ℕ) (dgi lru : List ℤ) (refs : List (ℕ × ℤ)) : List (ℤ × ℕ) :=
  ((missed hot dgi lru refs).map Prod.snd).zip
    (((evictable (used hot dgi (firsts refs)) lru).take (missed hot dgi lru refs).length).map Int.toNat)

namespace Kept
variable {hot : ℕ} {dgi lru : List ℤ} {refs : List (ℕ × ℤ)} (h : Kept hot dgi lru)
  (hpos : (refs.map Prod.fst).Pairwise (· < ·)) (hrefs : ∀ e ∈ refs, 0 ≤ e.2)
  (hunion : (refs.map Prod.snd).dedup.length ≤ hot)
include h hpos hrefs hunion

lemma length_taken :
    ((evictable (used hot dgi (firsts refs)) lru).take (missed hot dgi lru refs).length).length =
      (missed hot dgi lru refs).length :=
  List.length_take_of_le (h.length_missed_le hpos hrefs hunion)

lemma swapsOf_fst : (swapsOf hot dgi lru refs).map Prod.fst = (missed hot dgi lru refs).map Prod.snd := by
  rw [swapsOf, List.map_fst_zip]
  rw [List.length_map, List.length_map, h.length_taken hpos hrefs hunion]

lemma length_swapsOf : (swapsOf hot dgi lru refs).length = (missed hot dgi lru refs).length := by
  rw [← List.length_map Prod.fst, h.swapsOf_fst hpos hrefs hunion, List.length_map]

lemma swapsOf_snd : (swapsOf hot dgi lru refs).map Prod.snd =
    ((evictable (used hot dgi (firsts refs)) lru).take (missed hot dgi lru refs).length).map Int.toNat := by
  rw [swapsOf, List.map_snd_zip]
  rw [List.length_map, List.length_map, h.length_taken hpos hrefs hunion]

/-- They are the first slots that are not in use. -/
lemma taken_eq : (evictable (used hot dgi (firsts refs)) lru).take (swapsOf hot dgi lru refs).length =
    ((swapsOf hot dgi lru refs).map Prod.snd).map Nat.cast := by
  rw [h.length_swapsOf hpos hrefs hunion, h.swapsOf_snd hpos hrefs hunion, List.map_map]
  refine (List.map_id' _).symm.trans (List.map_congr_left fun s hs => ?_)
  obtain ⟨i, _, rfl⟩ := h.mem_iff.mp (List.mem_filter.mp (List.mem_of_mem_take hs)).1
  rfl

/-- A slot that is taken is there and not in use. -/
lemma of_mem_swapsOf {x : ℤ × ℕ} (hx : x ∈ swapsOf hot dgi lru refs) :
    x.2 < hot ∧ used hot dgi (firsts refs) x.2 = false := by
  have hmem : (x.2 : ℤ) ∈ (evictable (used hot dgi (firsts refs)) lru).take (swapsOf hot dgi lru refs).length := by
    rw [h.taken_eq hpos hrefs hunion]
    exact List.mem_map_of_mem (List.mem_map_of_mem hx)
  obtain ⟨hlru, hused⟩ := List.mem_filter.mp (List.mem_of_mem_take hmem)
  obtain ⟨i, hi, heq⟩ := h.mem_iff.mp hlru
  rw [Bool.not_eq_true'] at hused
  exact ⟨Int.ofNat_inj.mp heq ▸ hi, hused⟩

lemma swapsOf_slots_nodup : ((swapsOf hot dgi lru refs).map Prod.snd).Nodup := by
  have htaken : (((swapsOf hot dgi lru refs).map Prod.snd).map (Nat.cast : ℕ → ℤ)).Nodup := by
    rw [← h.taken_eq hpos hrefs hunion]
    exact (h.nodup.filter _).sublist (List.take_sublist _ _)
  exact htaken.of_map _

/-- The rows stay consistent. -/
lemma next : Kept hot (assign dgi ((swapsOf hot dgi lru refs).map Prod.swap))
    (refresh (used hot dgi (firsts refs)) (swapsOf hot dgi lru refs).length lru) where
  length := by rw [length_assign, h.length]
  perm := (refresh_perm _ _ _).trans h.perm
  injective := by
    refine h.injective.assign ?_ ?_ ?_
    · rw [List.map_map]
      exact h.swapsOf_slots_nodup hpos hrefs hunion
    · rw [List.map_map]
      change ((swapsOf hot dgi lru refs).map Prod.fst).Nodup
      rw [h.swapsOf_fst hpos hrefs hunion]
      exact missed_nodup hpos
    · intro p hp _
      obtain ⟨x, hx, rfl⟩ := List.mem_map.mp hp
      have hmem : x.1 ∈ (missed hot dgi lru refs).map Prod.snd := by
        rw [← h.swapsOf_fst hpos hrefs hunion]
        exact List.mem_map_of_mem hx
      exact ((h.mem_missed_iff hpos hrefs).mp hmem).2

/-- A row that is swapped in is in its slot. -/
lemma swapped_in {x : ℤ × ℕ} (hx : x ∈ swapsOf hot dgi lru refs) :
    (assign dgi ((swapsOf hot dgi lru refs).map Prod.swap))[x.2]? = some x.1 := by
  refine getElem?_assign_of_mem (p := x.swap) ?_ (List.mem_map_of_mem hx) ?_
  · rw [List.map_map]
    exact h.swapsOf_slots_nodup hpos hrefs hunion
  · rw [h.length]
    exact (h.of_mem_swapsOf hpos hrefs hunion hx).1

/-- A slot in use keeps its row. -/
lemma used_stays {i : ℕ} (hused : used hot dgi (firsts refs) i = true) :
    (assign dgi ((swapsOf hot dgi lru refs).map Prod.swap))[i]? = dgi[i]? := by
  refine getElem?_assign_of_notMem ?_
  rw [List.map_map]
  intro hmem
  obtain ⟨x, hx, rfl⟩ := List.mem_map.mp hmem
  have hfree := (h.of_mem_swapsOf hpos hrefs hunion hx).2
  exact Bool.false_ne_true (hfree.symm.trans hused)

/-- Every reference finds the slot that holds its row after the swaps. -/
lemma lookup_slot {e : ℕ × ℤ} (he : e ∈ refs) :
    ∃ v, (((swapsOf hot dgi lru refs).map fun x => (x.1, Placement.miss x.2)).reverse ++
        (walk hot dgi lru (firsts refs)).slotOf).lookup e.2 = some v ∧
      ∃ i, v.InSlot i ∧ i < hot ∧
        (assign dgi ((swapsOf hot dgi lru refs).map Prod.swap))[i]? = some e.2 ∧
        (e.2 ∈ dgi → dgi[i]? = some e.2) := by
  have hmem : e.2 ∈ refs.map Prod.snd := List.mem_map_of_mem he
  rw [List.lookup_append]
  cases hswap : ((swapsOf hot dgi lru refs).map fun x => (x.1, Placement.miss x.2)).reverse.lookup e.2 with
  | some v =>
    have hfound := mem_of_lookup hswap
    rw [List.mem_reverse] at hfound
    obtain ⟨x, hx, heq⟩ := List.mem_map.mp hfound
    obtain ⟨hrow, rfl⟩ := Prod.mk.inj heq
    have hin := h.swapped_in hpos hrefs hunion hx
    rw [hrow] at hin
    refine ⟨_, rfl, x.2, Or.inr rfl, (h.of_mem_swapsOf hpos hrefs hunion hx).1, hin, fun hres => ?_⟩
    have hmiss : e.2 ∈ (missed hot dgi lru refs).map Prod.snd := by
      rw [← h.swapsOf_fst hpos hrefs hunion, ← hrow]
      exact List.mem_map_of_mem hx
    exact absurd hres ((h.mem_missed_iff hpos hrefs).mp hmiss).2
  | none =>
    have hres : e.2 ∈ dgi := by
      by_contra hnot
      have hmiss := (h.mem_missed_iff hpos hrefs).mpr ⟨hmem, hnot⟩
      rw [← h.swapsOf_fst hpos hrefs hunion] at hmiss
      obtain ⟨x, hx, heq⟩ := List.mem_map.mp hmiss
      rw [List.lookup_eq_none_iff] at hswap
      have hne := hswap (x.1, .miss x.2) (List.mem_reverse.mpr (List.mem_map_of_mem hx))
      exact bne_iff_ne.mp hne heq.symm
    cases hwalk : (walk hot dgi lru (firsts refs)).slotOf.lookup e.2 with
    | none =>
      have hnone := (isNone_lookup_walk h hrefs hmem).mp (by rw [hwalk]; rfl)
      exact absurd hres hnone
    | some v =>
      obtain ⟨s, hs, rfl, hcontent⟩ := lookup_walk hwalk
      obtain ⟨hlru, hused⟩ := List.mem_filter.mp hs
      obtain ⟨i, hi, rfl⟩ := h.mem_iff.mp hlru
      have hhold := (content_eq_iff h.length hi).mp hcontent
      refine ⟨_, rfl, i, Or.inl rfl, hi, ?_, fun _ => hhold⟩
      rw [h.used_stays hpos hrefs hunion hused]
      exact hhold

end Kept

/-! ## The run -/

variable {L : Launch} {r : Run} {o : Out} {s : Store}

/-- The rows of padding. -/
lemma resolve_padding (hst : L.stateOf r.rid < 0) : resolve L (o, s) r = some (o.pad L r, s) := if_pos hst

/-- A run without host references does not consult the store. -/
lemma resolve_plain (hL : L.Shape) (h : ¬L.Hosts r) :
    ∃ o', resolve L (o, s) r = some (o', s) ∧ Out.Same L r o o' := by
  by_cases hst : L.stateOf r.rid < 0
  · exact ⟨_, resolve_padding hst, Out.same_pad L o r⟩
  · have hrefs : L.hostRefs r = [] := by
      by_contra hne
      exact h ⟨Int.not_lt.mp hst, hne⟩
    have hfirst : firsts (L.refs r (L.stateOf r.rid).toNat) = [] := by
      change firsts (L.hostRefs r) = []
      rw [hrefs]
      rfl
    simp only [resolve, if_neg hst, hfirst, if_true]
    refine ⟨_, rfl, ?_⟩
    have hvalid := Out.same_valid L r o (L.validCount r (L.stateOf r.rid).toNat)
    have hresident := hvalid.trans (Out.same_writeResident hL (L.stateOf r.rid).toNat _)
    exact hresident.trans (Out.same_swapCnt L r _ fun _ => 0)

/-- The steps of a run with host references. -/
lemma resolveRefs_eq {st : ℕ} {refs : List (ℕ × ℤ)} {slotOf : List (ℤ × Placement)} {dgi' : List ℤ}
    {o₁ o₂ : Out} (hswap : (missed s.hot (s.dgi st) (s.lru st) refs).zipIdx.foldlM
      (swapIn L s.hot r (evictable (used s.hot (s.dgi st) (firsts refs)) (s.lru st)))
      (o, (walk s.hot (s.dgi st) (s.lru st) (firsts refs)).slotOf, s.dgi st) = some (o₁, slotOf, dgi'))
    (hwrite : refs.foldlM (writeRef L r slotOf ((missed s.hot (s.dgi st) (s.lru st) refs).map Prod.fst)) o₁ =
      some o₂) :
    resolveRefs L r st refs o s = some
      ({ o₂ with
        swapCnt := Out.fill o₂.swapCnt r (swapCount L r (missed s.hot (s.dgi st) (s.lru st) refs).length) },
      { s with
        dgi := Function.update s.dgi st dgi'
        lru := Function.update s.lru st (refresh (used s.hot (s.dgi st) (firsts refs))
          (missed s.hot (s.dgi st) (s.lru st) refs).length (s.lru st)) }) := by
  have hevict : (walk s.hot (s.dgi st) (s.lru st) (firsts refs)).evict =
      evictable (used s.hot (s.dgi st) (firsts refs)) (s.lru st) := by rw [walk_eq]
  have hhits : (walk s.hot (s.dgi st) (s.lru st) (firsts refs)).hits =
      (s.lru st).filter (used s.hot (s.dgi st) (firsts refs)) := by rw [walk_eq]
  rw [missed] at hswap hwrite
  simp only [resolveRefs, hevict, hswap, hwrite, hhits, Option.bind_eq_bind, Option.bind_some]
  rfl

/-- What the outputs are after a run with host references. -/
lemma resolved_of_placed {hot : ℕ} {dgi lru dgi' : List ℤ} {swaps : List (ℤ × ℕ)} {o₁ o₂ : Out}
    (hL : L.Shape) (h : Kept hot dgi lru) (hunion : ((L.hostRefs r).map Prod.snd).dedup.length ≤ hot)
    (hswaps : swaps = swapsOf hot dgi lru (L.hostRefs r)) (hdgi : dgi' = assign dgi (swaps.map Prod.swap))
    (hswap : Out.Swapped L r 0 swaps o o₁)
    (hplaced : Out.Placed L r (fun g => dgi'.idxOf g) (L.hostRefs r) o₁ o₂) (f : ℕ → ℤ) :
    Resolved L r hot dgi lru dgi' (refresh (used hot dgi (firsts (L.hostRefs r))) swaps.length lru)
      { o₂ with swapCnt := Out.fill f r (swapCount L r swaps.length) } (fun g => dgi'.idxOf g) swaps := by
  have hpos : ((L.hostRefs r).map Prod.fst).Pairwise (· < ·) := Launch.refs_pairwise
  have hrefs : ∀ e ∈ L.hostRefs r, 0 ≤ e.2 := Launch.refs_nonneg
  have hinj : SlotsInjective (0 ≤ ·) dgi' := by
    rw [hdgi, hswaps]
    exact (h.next hpos hrefs hunion).injective
  have hfst : swaps.map Prod.fst = (missed hot dgi lru (L.hostRefs r)).map Prod.snd := by
    rw [hswaps]
    exact h.swapsOf_fst hpos hrefs hunion
  have hfound (e : ℕ × ℤ) (he : e ∈ L.hostRefs r) : ∃ i, i < hot ∧ dgi'.idxOf e.2 = i ∧
      dgi'[i]? = some e.2 ∧ (e.2 ∈ dgi → dgi[i]? = some e.2) := by
    obtain ⟨v, _, i, _, hi, hin, hold⟩ := h.lookup_slot hpos hrefs hunion he
    rw [← hswaps, ← hdgi] at hin
    exact ⟨i, hi, hinj.idxOf_eq hin (hrefs e he), hin, hold⟩
  have hfree (x : ℤ × ℕ) (hx : x ∈ swaps) : x.2 < hot ∧ used hot dgi (firsts (L.hostRefs r)) x.2 = false :=
    h.of_mem_swapsOf hpos hrefs hunion (hswaps ▸ hx)
  constructor
  case mapped =>
    intro e he
    obtain ⟨i, hi, hidx, hin, _⟩ := hfound e he
    exact ⟨hidx ▸ hi, hidx ▸ hin, hplaced.written e he⟩
  case distinct =>
    intro e he e' he'
    obtain ⟨i, _, hidx, hin, _⟩ := hfound e he
    obtain ⟨i', _, hidx', hin', _⟩ := hfound e' he'
    constructor
    · intro heq
      change dgi'.idxOf e.2 = dgi'.idxOf e'.2 at heq
      rw [hidx, hidx'] at heq
      rw [heq, hin', Option.some_inj] at hin
      exact hin.symm
    · intro heq
      rw [heq]
  case hit =>
    intro e he hres
    obtain ⟨i, _, hidx, _, hold⟩ := hfound e he
    exact hidx ▸ hold hres
  case kept =>
    intro x hx
    obtain ⟨hi, hunused⟩ := hfree x hx
    refine ⟨hi, fun e he hin => ?_⟩
    have hused : used hot dgi (firsts (L.hostRefs r)) x.2 = true := by
      rw [used_iff, (content_eq_iff h.length hi).mpr hin]
      exact ⟨hrefs e he, List.mem_map_of_mem he⟩
    exact Bool.false_ne_true (hunused.symm.trans hused)
  case contents => exact hdgi
  case nodup =>
    rw [hfst]
    exact missed_nodup hpos
  case slots_nodup =>
    rw [hswaps]
    exact h.swapsOf_slots_nodup hpos hrefs hunion
  case mem_iff =>
    intro g
    rw [hfst]
    exact h.mem_missed_iff hpos hrefs
  case slot =>
    intro x hx
    have hmiss := List.mem_map_of_mem (f := Prod.fst) hx
    rw [hfst] at hmiss
    obtain ⟨e, he, heq⟩ := List.mem_map.mp ((h.mem_missed_iff hpos hrefs).mp hmiss).1
    have hin := h.swapped_in hpos hrefs hunion (hswaps ▸ hx)
    rw [← hswaps, ← hdgi] at hin
    exact (hinj.idxOf_eq hin (heq ▸ hrefs e he)).symm
  case order =>
    rw [hfst]
    exact missed_pairwise hpos
  case fits =>
    have hrefs' : (L.hostRefs r).length ≤ (L.tokens r).length := List.length_filterMap_le _ _
    have hmissed : (missed hot dgi lru (L.hostRefs r)).length ≤ _ := (missed_sublist hpos).length_le
    rw [hswaps, h.length_swapsOf hpos hrefs hunion]
    exact (hmissed.trans hrefs').trans (Launch.length_tokens_le hL r)
  case listed =>
    intro m x hx
    have hm := hswap.listed m x hx
    rw [Nat.add_zero] at hm
    change o₂.swapHost _ = _ ∧ o₂.swapDev _ = _
    rw [hplaced.swapHost, hplaced.swapDev]
    exact hm
  case count =>
    intro row hlo hhi
    exact Out.fill_of_mem ⟨hlo, hhi⟩
  case oldest =>
    rw [hswaps]
    exact h.taken_eq hpos hrefs hunion
  case refreshed => rfl

/-- The writes of a run with host references stay in its rows and its part of the swap list. -/
lemma same_of_placed {swaps : List (ℤ × ℕ)} {o₁ o₂ : Out} {slot : ℤ → ℕ} (hL : L.Shape)
    (hstop : r.row ≤ r.stop) (hfits : swaps.length ≤ (r.stop - r.row) * L.topK)
    (hswap : Out.Swapped L r 0 swaps o o₁) (hplaced : Out.Placed L r slot (L.hostRefs r) o₁ o₂) :
    Out.Same L r o o₂ where
  row row hrow := by
    have hother (i : ℕ) : o₂.hot row i = o₁.hot row i ∧ o₂.attn row i = o₁.attn row i := by
      refine hplaced.other row i fun e he heq => ?_
      have hplace := Launch.place_mem (Launch.lt_of_mem_refs hL e he)
      rw [heq] at hplace
      exact hrow hplace
    refine ⟨?_, ?_, ?_, ?_⟩
    · rw [funext fun i => (hother i).1, hswap.hot]
    · rw [funext fun i => (hother i).2, hswap.attn]
    · rw [hplaced.valid, hswap.valid]
    · rw [hplaced.swapCnt, hswap.swapCnt]
  flat f hf := by
    have hend : r.row * L.topK + (r.stop - r.row) * L.topK = r.stop * L.topK := by
      rw [← Nat.add_mul, Nat.add_sub_cancel' hstop]
    rw [hplaced.swapHost, hplaced.swapDev]
    exact hswap.other f (by omega)

/-- A run with host references: it is resolved, its rows of the store stay consistent, and nothing else
changes. -/
lemma resolve_hosts (hL : L.Shape) (hstop : r.row ≤ r.stop) (h : L.Hosts r)
    (hunion : ((L.hostRefs r).map Prod.snd).dedup.length ≤ s.hot) {st : ℕ}
    (hst : (L.stateOf r.rid).toNat = st) (hkept : Kept s.hot (s.dgi st) (s.lru st)) :
    ∃ o' dgi' lru' slotOf swaps, resolve L (o, s) r = some (o', { s with
        dgi := Function.update s.dgi st dgi', lru := Function.update s.lru st lru' }) ∧
      Kept s.hot dgi' lru' ∧ Out.Same L r o o' ∧
      Resolved L r s.hot (s.dgi st) (s.lru st) dgi' lru' o' slotOf swaps := by
  have hpos : ((L.hostRefs r).map Prod.fst).Pairwise (· < ·) := Launch.refs_pairwise
  have hrefs : ∀ e ∈ L.hostRefs r, 0 ≤ e.2 := Launch.refs_nonneg
  have hnext := hkept.next hpos hrefs hunion
  generalize hswaps : swapsOf s.hot (s.dgi st) (s.lru st) (L.hostRefs r) = swaps at hnext
  generalize hdgi : assign (s.dgi st) (swaps.map Prod.swap) = dgi' at hnext
  have hlen : swaps.length = (missed s.hot (s.dgi st) (s.lru st) (L.hostRefs r)).length := by
    rw [← hswaps]
    exact hkept.length_swapsOf hpos hrefs hunion
  have hslots : ∀ m x, swaps[m]? = some x →
      (evictable (used s.hot (s.dgi st) (firsts (L.hostRefs r))) (s.lru st))[0 + m]? = some (x.2 : ℤ) ∧
        x.2 < s.hot := by
    intro m x hx
    rw [← hswaps] at hx
    have hlt := (List.getElem?_eq_some_iff.mp hx).1
    have htaken := congrArg (fun l => l[m]?) (hkept.taken_eq hpos hrefs hunion)
    simp only [List.getElem?_take, List.getElem?_map, if_pos hlt, hx] at htaken
    rw [Nat.zero_add]
    exact ⟨htaken, (hkept.of_mem_swapsOf hpos hrefs hunion (List.mem_of_getElem? hx)).1⟩
  let o₁ : Out := { o with valid := Out.fill o.valid r (L.validCount r st) }
  obtain ⟨o₂, heq₂, h₂⟩ := foldlM_swapIn (L := L) (r := r) (missed s.hot (s.dgi st) (s.lru st) (L.hostRefs r))
    swaps 0 (hswaps ▸ (hkept.swapsOf_fst hpos hrefs hunion).symm) hslots (o₁.writeResident L r st)
    (walk s.hot (s.dgi st) (s.lru st) (firsts (L.hostRefs r))).slotOf (s.dgi st)
  have hlookup : ∀ e ∈ L.hostRefs r, ∃ v, ((swaps.map fun x => (x.1, Placement.miss x.2)).reverse ++
      (walk s.hot (s.dgi st) (s.lru st) (firsts (L.hostRefs r))).slotOf).lookup e.2 = some v ∧
      v.InSlot (dgi'.idxOf e.2) := by
    intro e he
    obtain ⟨v, hv, i, hin, _, hi, _⟩ := hkept.lookup_slot hpos hrefs hunion he
    rw [hswaps, hdgi] at hi
    rw [hswaps] at hv
    rw [hnext.injective.idxOf_eq hi (hrefs e he)]
    exact ⟨v, hv, hin⟩
  obtain ⟨o₃, heq₃, h₃⟩ := foldlM_writeRef (L := L) (r := r)
    ((missed s.hot (s.dgi st) (s.lru st) (L.hostRefs r)).map Prod.fst) (fun g => dgi'.idxOf g) (L.hostRefs r) (hpos.imp fun hlt => Nat.ne_of_lt hlt) hlookup o₂
  have hresolved := resolved_of_placed hL hkept hunion hswaps.symm hdgi.symm h₂ h₃ o₃.swapCnt
  have hsame : Out.Same L r o o₃ := by
    have hvalid := Out.same_valid L r o (L.validCount r st)
    have hresident := hvalid.trans (Out.same_writeResident hL st o₁)
    exact hresident.trans (same_of_placed hL hstop hresolved.fits h₂ h₃)
  have hfirst : ¬firsts (L.refs r st) = [] := by
    rw [← hst, ← List.length_eq_zero_iff, length_firsts, List.length_eq_zero_iff, List.dedup_eq_nil,
      List.map_eq_nil_iff]
    exact h.2
  refine ⟨_, dgi', _, _, swaps, ?_, hnext, hsame.trans (Out.same_swapCnt L r o₃ _), hresolved⟩
  rw [hdgi] at heq₂
  have heq := resolveRefs_eq heq₂ heq₃
  rw [← hlen] at heq
  simp only [resolve, if_neg (Int.not_lt.mpr h.1), hst, if_neg hfirst]
  rw [← heq, Launch.hostRefs, hst]

end Run
end SuffixHybrid.HiSparse
