import SuffixHybrid.HiSparse.Store

/-!
# The history of a residency store

`Timed` records beside the store when a slot was last used by a step. The LRU lists of the store are in
the order of these times, so a slot that a step evicts is one of the least recently used among those that
the step does not use.
-/

namespace SuffixHybrid.HiSparse
open Lib

/-- A step uses the slots that hold its host rows after it. -/
def Launch.Uses (L : Launch) (dgi : List ℤ) (st slot : ℕ) : Prop :=
  ∃ r ∈ L.runs, L.stateOf r.rid = st ∧ ∃ e ∈ L.hostRefs r, dgi[slot]? = some e.2

instance (L : Launch) (dgi : List ℤ) (st slot : ℕ) : Decidable (L.Uses dgi st slot) :=
  inferInstanceAs (Decidable (∃ r ∈ L.runs, _))

namespace Op

/-- The slots that an operation uses. -/
def Uses (s' : Store) (st slot : ℕ) : Op → Prop
  | .resolve L => L.Uses (s'.dgi st) st slot
  | .invalidate _ _ => False

instance (s' : Store) (st slot : ℕ) : ∀ op : Op, Decidable (op.Uses s' st slot)
  | .resolve L => inferInstanceAs (Decidable (L.Uses _ _ _))
  | .invalidate _ _ => inferInstanceAs (Decidable False)

/-- What callers keep to: a step fits the union rows, and an invalidation runs every block once. -/
def Fits (hot unionRows : ℕ) : Op → Prop
  | .resolve L => L.Fits unionRows
  | .invalidate I order => order.Perm (I.blocks hot)

end Op

/-- A store with the times at which its slots were last used. -/
structure Timed where
  store : Store
  now : ℕ
  lastUse : ℕ → ℕ → ℕ

namespace Timed

/-- No slot has been used. -/
def start (s : Store) : Timed := ⟨s, 0, fun _ _ => 0⟩

def op (t : Timed) (op : Op) : Option Timed :=
  (t.store.op op).map fun s' =>
    ⟨s', t.now + 1, fun st slot => if op.Uses s' st slot then t.now + 1 else t.lastUse st slot⟩

/-- What an operation gives. -/
def Gives (t t' : Timed) : Op → Prop
  | .resolve L => ∃ o, L.resolve t.store = some (o, t'.store) ∧ L.Resolves t.store t'.store o ∧
      ∀ st i j : ℕ, j < t.store.hot → (t'.store.dgi st)[i]? ≠ (t.store.dgi st)[i]? →
        ¬L.Uses (t'.store.dgi st) st j → t.lastUse st i ≤ t.lastUse st j
  | .invalidate I _ => I.Drops t.store t'.store

/-- An operation returns, keeps the store consistent and gives what it should. -/
def Sound (t : Timed) (op : Op) : Prop := ∃ t', t.op op = some t' ∧ t'.store.Kept ∧ t.Gives t' op

/-- The LRU lists are in the order of the last uses. -/
structure Inv (hot : ℕ) (t : Timed) : Prop where
  hot : t.store.hot = hot
  kept : t.store.Kept
  sorted : ∀ st, (t.store.lru st).Pairwise fun i j => t.lastUse st i.toNat ≤ t.lastUse st j.toNat
  past : ∀ st i, t.lastUse st i ≤ t.now

lemma Inv.start {s : Store} (hs : s.Kept) : Inv s.hot (start s) where
  hot := rfl
  kept := hs
  sorted _ := List.pairwise_of_forall fun _ _ => Nat.le_refl 0
  past _ _ := Nat.le_refl 0

end Timed

/-! ## The slots that a step uses -/

namespace Run.Resolved
variable {L : Launch} {r : Run} {hot : ℕ} {dgi lru dgi' lru' : List ℤ} {o : Out} {slotOf : ℤ → ℕ}
  {swaps : List (ℤ × ℕ)}

lemma not_taken (h : Resolved L r hot dgi lru dgi' lru' o slotOf swaps) {i : ℕ}
    (hi : i ∉ swaps.map Prod.snd) : dgi'[i]? = dgi[i]? := by
  rw [h.contents]
  refine getElem?_assign_of_notMem ?_
  rw [List.map_map]
  exact hi

/-- The slots that hold referenced rows are those that are taken, and those that held such rows before. -/
lemma holds_iff (h : Resolved L r hot dgi lru dgi' lru' o slotOf swaps) (hkept : Kept hot dgi lru) {i : ℕ}
    (hi : i < hot) : (∃ e ∈ L.hostRefs r, dgi'[i]? = some e.2) ↔
      i ∈ swaps.map Prod.snd ∨ used hot dgi (firsts (L.hostRefs r)) i = true := by
  constructor
  · rintro ⟨e, he, hin⟩
    by_cases htaken : i ∈ swaps.map Prod.snd
    · exact Or.inl htaken
    · rw [h.not_taken htaken] at hin
      rw [used_iff, (content_eq_iff hkept.length hi).mpr hin]
      exact Or.inr ⟨Launch.refs_nonneg e he, List.mem_map_of_mem he⟩
  · rintro (htaken | hused)
    · obtain ⟨x, hx, rfl⟩ := List.mem_map.mp htaken
      obtain ⟨e, he, heq⟩ := List.mem_map.mp ((h.mem_iff x.1).mp (List.mem_map_of_mem hx)).1
      refine ⟨e, he, ?_⟩
      rw [h.slot x hx, ← heq]
      exact (h.mapped e he).2.1
    · obtain ⟨_, hmem⟩ := used_iff.mp hused
      obtain ⟨e, he, heq⟩ := List.mem_map.mp hmem
      have hin := (content_eq_iff hkept.length hi).mp heq.symm
      refine ⟨e, he, ?_⟩
      have hfree : i ∉ swaps.map Prod.snd := by
        intro htaken
        obtain ⟨x, hx, rfl⟩ := List.mem_map.mp htaken
        exact (h.kept x hx).2 e he hin
      rw [h.not_taken hfree]
      exact hin

/-- A slot that is neither taken nor in use is left among the evictable ones. -/
lemma mem_drop (h : Resolved L r hot dgi lru dgi' lru' o slotOf swaps) (hkept : Kept hot dgi lru) {i : ℕ}
    (hi : i < hot) (hfree : ¬∃ e ∈ L.hostRefs r, dgi'[i]? = some e.2) :
    (i : ℤ) ∈ (evictable (used hot dgi (firsts (L.hostRefs r))) lru).drop swaps.length := by
  rw [h.holds_iff hkept hi, not_or, Bool.not_eq_true] at hfree
  have hmem : (i : ℤ) ∈ evictable (used hot dgi (firsts (L.hostRefs r))) lru := by
    refine List.mem_filter.mpr ⟨hkept.mem_iff.mpr ⟨i, hi, rfl⟩, ?_⟩
    rw [hfree.2]
    rfl
  rw [← List.take_append_drop swaps.length (evictable _ _), List.mem_append, h.oldest] at hmem
  rcases hmem with htaken | hdrop
  · obtain ⟨j, hj, heq⟩ := List.mem_map.mp htaken
    cases Int.ofNat_inj.mp heq
    exact absurd hj hfree.1
  · exact hdrop

lemma mem_take (h : Resolved L r hot dgi lru dgi' lru' o slotOf swaps) {i : ℕ}
    (hi : i ∈ swaps.map Prod.snd) :
    (i : ℤ) ∈ (evictable (used hot dgi (firsts (L.hostRefs r))) lru).take swaps.length := by
  rw [h.oldest]
  exact List.mem_map_of_mem hi

end Run.Resolved

namespace Launch.Fits
variable {L : Launch} {unionRows : ℕ}

/-- The slots of a state row are used by its one run with host references. -/
lemma uses_iff (h : L.Fits unionRows) {r : Run} (hr : r ∈ L.runs) (hhost : L.Hosts r) {dgi : List ℤ} {i : ℕ} :
    L.Uses dgi (L.stateOf r.rid).toNat i ↔ ∃ e ∈ L.hostRefs r, dgi[i]? = some e.2 := by
  constructor
  · rintro ⟨r', hr', hst, e, he, hin⟩
    rw [Int.toNat_of_nonneg hhost.1] at hst
    have hhost' : L.Hosts r' := ⟨hst ▸ hhost.1, List.ne_nil_of_mem he⟩
    have hsame : r' = r := by
      by_contra hne
      have hsymm : Std.Symm fun r r' : Run => L.Hosts r → L.Hosts r' → L.stateOf r.rid ≠ L.stateOf r'.rid :=
        ⟨fun _ _ hR h h' => (hR h' h).symm⟩
      exact h.apart.forall hr' hr hne hhost' hhost hst
    rw [hsame] at he
    exact ⟨e, he, hin⟩
  · rintro ⟨e, he, hin⟩
    exact ⟨r, hr, (Int.toNat_of_nonneg hhost.1).symm, e, he, hin⟩

/-- No slot of another state row is used. -/
lemma not_uses {st : ℕ} (hst : ∀ r ∈ L.runs, L.Hosts r → (L.stateOf r.rid).toNat ≠ st) {dgi : List ℤ} {i : ℕ} :
    ¬L.Uses dgi st i := by
  rintro ⟨r, hr, heq, e, he, _⟩
  have hhost : L.Hosts r := ⟨heq ▸ Int.natCast_nonneg st, List.ne_nil_of_mem he⟩
  exact hst r hr hhost (by rw [heq, Int.toNat_natCast])

end Launch.Fits
/-! ## The history -/

namespace Timed
variable {hot unionRows : ℕ} {t : Timed}

/-- The state rows that a step resolves, and the others. -/
lemma exists_run_or_not (L : Launch) (st : ℕ) :
    (∃ r ∈ L.runs, L.Hosts r ∧ (L.stateOf r.rid).toNat = st) ∨
      ∀ r ∈ L.runs, L.Hosts r → (L.stateOf r.rid).toNat ≠ st := by
  by_cases h : ∃ r ∈ L.runs, L.Hosts r ∧ (L.stateOf r.rid).toNat = st
  · exact Or.inl h
  · exact Or.inr fun r hr hhost hst => h ⟨r, hr, hhost, hst⟩

/-- The lists stay in order: the slots that the step uses have been put last. -/
lemma sorted_resolve {L : Launch} (hL : L.Fits unionRows) {s' : Store} {o : Out} (h : Inv hot t)
    (hres : L.Resolves t.store s' o) (st : ℕ) :
    (s'.lru st).Pairwise fun i j =>
      (if L.Uses (s'.dgi st) st i.toNat then t.now + 1 else t.lastUse st i.toNat) ≤
        if L.Uses (s'.dgi st) st j.toNat then t.now + 1 else t.lastUse st j.toNat := by
  have hpast (i : ℕ) : (if L.Uses (s'.dgi st) st i then t.now + 1 else t.lastUse st i) ≤ t.now + 1 := by
    split
    next => exact Nat.le_refl _
    next => exact (h.past st i).trans (Nat.le_succ _)
  rcases exists_run_or_not L st with ⟨r, hr, hhost, rfl⟩ | hst
  · obtain ⟨slotOf, swaps, hr'⟩ := hres.resolved r hr hhost
    have hkept := h.kept (L.stateOf r.rid).toNat
    have huses {i : ℕ} (hi : i < t.store.hot) := (hL.uses_iff hr hhost).trans (hr'.holds_iff hkept hi)
    rw [hr'.refreshed]
    refine refresh_pairwise (h.sorted _) ?_ ?_
    · intro i hi j hj hle
      have hnot (k : ℤ) (hk : k ∈ (evictable (Run.used t.store.hot (t.store.dgi (L.stateOf r.rid).toNat)
          (firsts (L.hostRefs r))) (t.store.lru (L.stateOf r.rid).toNat)).drop swaps.length) :
          ¬L.Uses (s'.dgi (L.stateOf r.rid).toNat) (L.stateOf r.rid).toNat k.toNat := by
        obtain ⟨hlru, hunused⟩ := List.mem_filter.mp (List.mem_of_mem_drop hk)
        obtain ⟨i, hi, rfl⟩ := hkept.mem_iff.mp hlru
        rw [Int.toNat_natCast, huses hi, not_or, Bool.not_eq_true]
        refine ⟨fun htaken => ?_, by simpa using hunused⟩
        have hnodup := hkept.nodup.sublist (List.filter_sublist (p := fun s => !Run.used t.store.hot
          (t.store.dgi (L.stateOf r.rid).toNat) (firsts (L.hostRefs r)) s))
        exact List.disjoint_take_drop hnodup (Nat.le_refl _) (hr'.mem_take htaken) hk
      rw [if_neg (hnot i hi), if_neg (hnot j hj)]
      exact hle
    · intro i _ j hj hlast
      obtain ⟨k, hk, rfl⟩ := hkept.mem_iff.mp hj
      have hused : L.Uses (s'.dgi (L.stateOf r.rid).toNat) (L.stateOf r.rid).toNat k := by
        rw [huses hk]
        refine hlast.imp (fun htake => ?_) id
        rw [hr'.oldest] at htake
        obtain ⟨k', hk', heq⟩ := List.mem_map.mp htake
        exact Int.ofNat_inj.mp heq ▸ hk'
      rw [Int.toNat_natCast, if_pos hused]
      exact hpast _
  · rw [(hres.other st hst).2]
    refine (h.sorted st).imp fun hle => ?_
    rw [if_neg (Launch.Fits.not_uses hst), if_neg (Launch.Fits.not_uses hst)]
    exact hle

/-- A slot with another row after the step was one of the least recently used that the step leaves. -/
lemma least_recent {L : Launch} (hL : L.Fits unionRows) {s' : Store} {o : Out} (h : Inv hot t)
    (hres : L.Resolves t.store s' o) {st i j : ℕ} (hj : j < t.store.hot)
    (hchanged : (s'.dgi st)[i]? ≠ (t.store.dgi st)[i]?) (hfree : ¬L.Uses (s'.dgi st) st j) :
    t.lastUse st i ≤ t.lastUse st j := by
  rcases exists_run_or_not L st with ⟨r, hr, hhost, rfl⟩ | hst
  · obtain ⟨slotOf, swaps, hr'⟩ := hres.resolved r hr hhost
    have hkept := h.kept (L.stateOf r.rid).toNat
    have htaken : i ∈ swaps.map Prod.snd := by
      by_contra hnot
      exact hchanged (hr'.not_taken hnot)
    rw [hL.uses_iff hr hhost] at hfree
    have hle := taken_before (h.sorted _) (hr'.mem_take htaken) (hr'.mem_drop hkept hj hfree)
    rw [Int.toNat_natCast, Int.toNat_natCast] at hle
    exact hle
  · rw [(hres.other st hst).1] at hchanged
    exact absurd rfl hchanged

/-- One operation. -/
lemma Inv.op (h : Inv hot t) (hunion : unionRows ≤ hot) {op : Op} (hop : op.Fits hot unionRows) :
    ∃ t', t.op op = some t' ∧ Inv hot t' ∧ t.Gives t' op := by
  have hpast (s' : Store) (st i : ℕ) :
      (if op.Uses s' st i then t.now + 1 else t.lastUse st i) ≤ t.now + 1 := by
    split
    next => exact Nat.le_refl _
    next => exact (h.past st i).trans (Nat.le_succ _)
  cases op with
  | resolve L =>
    have hhot : unionRows ≤ t.store.hot := h.hot ▸ hunion
    obtain ⟨o, s', heq, hhot', hkept, hres⟩ := Launch.Fits.resolve hop hhot h.kept
    refine ⟨⟨s', t.now + 1, _⟩, ?_, ⟨hhot'.trans h.hot, hkept, ?_, hpast s'⟩, o, heq, hres, ?_⟩
    · rw [Timed.op, Store.op, heq]
      rfl
    · exact sorted_resolve hop h hres
    · intro st i j hj hchanged hfree
      exact least_recent hop h hres hj hchanged hfree
  | invalidate I order =>
    rw [← h.hot] at hop
    have hdrops := Invalidation.run_drops hop h.kept
    refine ⟨⟨I.run order t.store, t.now + 1, t.lastUse⟩, rfl,
      ⟨hdrops.hot.trans h.hot, hdrops.kept h.kept, ?_, ?_⟩, hdrops⟩
    · intro st
      dsimp only
      rw [hdrops.lru]
      exact h.sorted st
    · exact fun st i => (h.past st i).trans (Nat.le_succ _)

end Timed

/-- The store stays consistent over every sequence of steps and invalidations. Each step returns, maps
every host reference to the slot that holds its row and swaps the missing rows into the least recently used
slots that it does not use; each invalidation drops the written slots of its requests. -/
theorem residency_consistent {s : Store} (hs : s.Kept) {unionRows : ℕ} (hunion : unionRows ≤ s.hot)
    {ops : List Op} (hops : ∀ op ∈ ops, op.Fits s.hot unionRows) :
    (run Timed.op (Timed.start s) ops).isSome ∧ Along Timed.op Timed.Sound (Timed.start s) ops := by
  have hfits : Along Timed.op (fun _ op => op.Fits s.hot unionRows) (Timed.start s) ops :=
    Along.of_forall fun _ => hops
  have hstart := Timed.Inv.start hs
  have hstep (t : Timed) (op : Op) (h : Timed.Inv s.hot t) (hop : op.Fits s.hot unionRows) :
      ∃ t', t.op op = some t' ∧ Timed.Inv s.hot t' := by
    obtain ⟨t', heq, hinv, _⟩ := h.op hunion hop
    exact ⟨t', heq, hinv⟩
  constructor
  · obtain ⟨t', hrun, _⟩ := hfits.total hstep hstart
    rw [hrun]
    rfl
  · refine Along.imp (fun t op h hop => ?_) hstart hfits
    obtain ⟨t', heq, hinv, hgives⟩ := h.op hunion hop
    refine ⟨⟨t', heq, hinv.kept, hgives⟩, fun t'' heq' => ?_⟩
    rw [heq, Option.some_inj] at heq'
    exact heq' ▸ hinv

/-- Two verify rows of one request. Row 5 is resident, and 9 is swapped into the other slot. -/
def smallLaunch : Launch where
  topK := 2
  gidx := [[4, 8], [8, -1]]
  requestIds := [0, 0]
  stateIdx := [0]
  hotBt _ _ := 3
  hotBs := 2
  srcBt := ⟨1, 16, fun _ col => col + 1⟩
  srcBs := 1
  resBt := none
  resBs := 1
  resNull := 0
  hostRows := 100
  attnBlockStride := 8

/-- A store with two slots a request. -/
def smallStore : Store := ⟨2, fun _ => [5, 7], fun _ => [1, 0]⟩

/-- The copy of row 9 is written to again. -/
def smallWrite : Invalidation := ⟨[0], 1, [0], [9]⟩

lemma smallStore_kept : smallStore.Kept := by
  refine fun st => ⟨rfl, List.Perm.swap 0 1 [], fun i j b hi hj _ => ?_⟩
  have hnodup : ([5, 7] : List ℤ).Nodup := by decide
  exact (List.getElem?_inj (List.getElem?_eq_some_iff.mp hi).1 hnodup).mp (hi.trans hj.symm)

lemma smallLaunch_fits : smallLaunch.Fits 2 :=
  ⟨⟨by decide, rfl⟩, by decide, by decide⟩

theorem residency_consistent_small :
    let ops := [Op.resolve smallLaunch, Op.invalidate smallWrite (smallWrite.blocks 2)]
    (run Timed.op (Timed.start smallStore) ops).isSome ∧
      Along Timed.op Timed.Sound (Timed.start smallStore) ops := by
  refine residency_consistent smallStore_kept (Nat.le_refl 2) fun op hop => ?_
  rcases List.mem_cons.mp hop with rfl | hop
  · exact smallLaunch_fits
  · cases List.mem_singleton.mp hop
    exact List.Perm.refl _

end SuffixHybrid.HiSparse
