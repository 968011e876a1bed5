import SuffixHybrid.HiSparse.Resolved
import SuffixHybrid.Lib.Run

/-!
# The residency store over steps and invalidations

A step resolves its runs one after the other. They have different rows, and those with host references
have different state rows, so every run stays resolved to the end of the step. Over a sequence of steps and
invalidations the store stays consistent, and its LRU lists are in the order of the last use of the slots.
-/

namespace SuffixHybrid.HiSparse
open Lib

/-! ## The runs of a step -/

/-- A row is a run of its own, or the first one of the run that follows. -/
lemma runsFrom_cons (k : ℕ) (id : ℤ) (ids : List ℤ) :
    runsFrom k (id :: ids) = ⟨k, k + 1, id⟩ :: runsFrom (k + 1) ids ∨
      ∃ r rs, runsFrom (k + 1) ids = r :: rs ∧ r.rid = id ∧
        runsFrom k (id :: ids) = ⟨k, r.stop, id⟩ :: rs := by
  rw [runsFrom]
  cases hruns : runsFrom (k + 1) ids with
  | nil => exact Or.inl rfl
  | cons r rs =>
    dsimp only
    split
    next hsame => exact Or.inr ⟨r, rs, rfl, hsame, rfl⟩
    next => exact Or.inl rfl

lemma of_mem_runsFrom {ids : List ℤ} {k : ℕ} {r : Run} (h : r ∈ runsFrom k ids) :
    k ≤ r.row ∧ r.row < r.stop := by
  induction ids generalizing k r with
  | nil => cases h
  | cons id ids ih =>
    rcases runsFrom_cons k id ids with heq | ⟨r', rs, hruns, _, heq⟩
    · rw [heq] at h
      rcases List.mem_cons.mp h with rfl | hmem
      · exact ⟨Nat.le_refl k, Nat.lt_succ_self k⟩
      · obtain ⟨hlo, hhi⟩ := ih hmem
        exact ⟨Nat.le_of_succ_le hlo, hhi⟩
    · rw [heq] at h
      rcases List.mem_cons.mp h with rfl | hmem
      · obtain ⟨hlo, hhi⟩ := ih (hruns ▸ List.mem_cons_self)
        exact ⟨Nat.le_refl k, Nat.lt_trans hlo hhi⟩
      · obtain ⟨hlo, hhi⟩ := ih (hruns ▸ List.mem_cons_of_mem _ hmem)
        exact ⟨Nat.le_of_succ_le hlo, hhi⟩

/-- The runs follow each other. -/
lemma runsFrom_pairwise (ids : List ℤ) (k : ℕ) :
    (runsFrom k ids).Pairwise fun r r' => r.stop ≤ r'.row := by
  induction ids generalizing k with
  | nil => exact List.Pairwise.nil
  | cons id ids ih =>
    rcases runsFrom_cons k id ids with heq | ⟨r, rs, hruns, _, heq⟩
    · rw [heq]
      exact List.Pairwise.cons (fun r hr => (of_mem_runsFrom hr).1) (ih (k + 1))
    · have hrest := ih (k + 1)
      rw [hruns, List.pairwise_cons] at hrest
      rw [heq]
      exact List.Pairwise.cons hrest.1 hrest.2

/-- Every row is in a run of its request. -/
lemma runsFrom_covers {ids : List ℤ} (k : ℕ) {i : ℕ} {id : ℤ} (h : ids[i]? = some id) :
    ∃ r ∈ runsFrom k ids, r.row ≤ k + i ∧ k + i < r.stop ∧ r.rid = id := by
  induction ids generalizing k i with
  | nil => cases h
  | cons id' ids ih =>
    cases i with
    | zero =>
      cases h
      rcases runsFrom_cons k id ids with heq | ⟨r, rs, hruns, _, heq⟩
      · rw [heq]
        exact ⟨_, List.mem_cons_self, Nat.le_refl k, Nat.lt_succ_self k, rfl⟩
      · rw [heq]
        obtain ⟨hlo, hhi⟩ := of_mem_runsFrom (hruns ▸ List.mem_cons_self)
        exact ⟨_, List.mem_cons_self, Nat.le_refl k, Nat.lt_trans hlo hhi, rfl⟩
    | succ i =>
      obtain ⟨r, hr, hlo, hhi, hrid⟩ := ih (k + 1) h
      rw [Nat.add_right_comm, Nat.add_assoc] at hlo hhi
      rcases runsFrom_cons k id' ids with heq | ⟨r', rs, hruns, hsame, heq⟩
      · rw [heq]
        exact ⟨r, List.mem_cons_of_mem _ hr, hlo, hhi, hrid⟩
      · rw [heq]
        rcases List.mem_cons.mp (hruns ▸ hr) with rfl | hmem
        · exact ⟨_, List.mem_cons_self, Nat.le_add_right _ _, hhi, hsame.symm.trans hrid⟩
        · exact ⟨r, List.mem_cons_of_mem _ hmem, hlo, hhi, hrid⟩

/-! ## A step -/

/-- What callers keep to: every run with host references has at most `unionRows` different host rows, and
these runs have different state rows, as a request has one and is in one such run. -/
structure Launch.Fits (L : Launch) (unionRows : ℕ) : Prop where
  shape : L.Shape
  union : ∀ r ∈ L.runs, L.Hosts r → ((L.hostRefs r).map Prod.snd).dedup.length ≤ unionRows
  apart : L.runs.Pairwise fun r r' => L.Hosts r → L.Hosts r' → L.stateOf r.rid ≠ L.stateOf r'.rid

/-- The rows of the store that belong to a run are resolved. -/
def Run.ResolvedIn (L : Launch) (r : Run) (s s' : Store) (o : Out) : Prop :=
  ∃ slotOf swaps, Run.Resolved L r s.hot (s.dgi (L.stateOf r.rid).toNat) (s.lru (L.stateOf r.rid).toNat)
    (s'.dgi (L.stateOf r.rid).toNat) (s'.lru (L.stateOf r.rid).toNat) o slotOf swaps

/-- Only the state row of the run counts. -/
lemma Run.ResolvedIn.congr {L : Launch} {r : Run} {s₁ s₁' s₂ s₂' : Store} {o : Out}
    (h : r.ResolvedIn L s₁ s₁' o) (hhot : s₂.hot = s₁.hot)
    (hs : s₂.dgi (L.stateOf r.rid).toNat = s₁.dgi (L.stateOf r.rid).toNat ∧
      s₂.lru (L.stateOf r.rid).toNat = s₁.lru (L.stateOf r.rid).toNat)
    (hs' : s₂'.dgi (L.stateOf r.rid).toNat = s₁'.dgi (L.stateOf r.rid).toNat ∧
      s₂'.lru (L.stateOf r.rid).toNat = s₁'.lru (L.stateOf r.rid).toNat) : r.ResolvedIn L s₂ s₂' o := by
  rw [ResolvedIn, hhot, hs.1, hs.2, hs'.1, hs'.2]
  exact h

/-- The store is consistent. -/
def Store.Kept (s : Store) : Prop := ∀ st, Run.Kept s.hot (s.dgi st) (s.lru st)

namespace Launch
variable {L : Launch}

lemma Hosts.toNat_ne {r r' : Run} (h : L.Hosts r) (h' : L.Hosts r')
    (hne : L.stateOf r.rid ≠ L.stateOf r'.rid) : (L.stateOf r.rid).toNat ≠ (L.stateOf r'.rid).toNat := by
  intro heq
  rw [← Int.toNat_of_nonneg h.1, ← Int.toNat_of_nonneg h'.1, heq] at hne
  exact hne rfl

/-- The runs of a step, from whatever outputs and store on. -/
lemma resolve_runs (hL : L.Shape) {unionRows : ℕ} {rs : List Run} (hrow : ∀ r ∈ rs, r.row ≤ r.stop)
    (hdisj : rs.Pairwise fun r r' => r.stop ≤ r'.row)
    (hunion : ∀ r ∈ rs, L.Hosts r → ((L.hostRefs r).map Prod.snd).dedup.length ≤ unionRows)
    (hapart : rs.Pairwise fun r r' => L.Hosts r → L.Hosts r' → L.stateOf r.rid ≠ L.stateOf r'.rid)
    {s : Store} (hhot : unionRows ≤ s.hot) (hs : s.Kept) (o : Out) :
    ∃ o' s', rs.foldlM (Run.resolve L) (o, s) = some (o', s') ∧ s'.hot = s.hot ∧ s'.Kept ∧
      (∀ r ∈ rs, L.Hosts r → r.ResolvedIn L s s' o') ∧
      (∀ st, (∀ r ∈ rs, L.Hosts r → (L.stateOf r.rid).toNat ≠ st) →
        s'.dgi st = s.dgi st ∧ s'.lru st = s.lru st) ∧
      ∀ (r : Run) (s₁ s₂ : Store), r.row ≤ r.stop → (∀ r' ∈ rs, r.stop ≤ r'.row) → r.ResolvedIn L s₁ s₂ o →
        r.ResolvedIn L s₁ s₂ o' := by
  induction rs generalizing s o with
  | nil =>
    exact ⟨o, s, rfl, rfl, hs, by simp, fun _ _ => ⟨rfl, rfl⟩, fun _ _ _ _ _ h => h⟩
  | cons r rs ih =>
    rw [List.pairwise_cons] at hdisj hapart
    have hstop := hrow r List.mem_cons_self
    have hrow' : ∀ r ∈ rs, r.row ≤ r.stop := fun r' hr' => hrow r' (List.mem_cons_of_mem _ hr')
    have hunion' : ∀ r ∈ rs, L.Hosts r → ((L.hostRefs r).map Prod.snd).dedup.length ≤ unionRows :=
      fun r' hr' => hunion r' (List.mem_cons_of_mem _ hr')
    by_cases hhost : L.Hosts r
    · obtain ⟨o₁, dgi', lru', slotOf, swaps, heq, hkept, hsame, hres⟩ := Run.resolve_hosts (o := o) hL hstop
        hhost ((hunion r List.mem_cons_self hhost).trans hhot) rfl (hs (L.stateOf r.rid).toNat)
      generalize hs₁ : ({ s with
        dgi := Function.update s.dgi (L.stateOf r.rid).toNat dgi'
        lru := Function.update s.lru (L.stateOf r.rid).toNat lru' } : Store) = s₁ at heq
      have hhot₁ : s₁.hot = s.hot := by rw [← hs₁]
      have hself : s₁.dgi (L.stateOf r.rid).toNat = dgi' ∧ s₁.lru (L.stateOf r.rid).toNat = lru' := by
        rw [← hs₁]
        exact ⟨Function.update_self _ _ _, Function.update_self _ _ _⟩
      have hother (st : ℕ) (hst : (L.stateOf r.rid).toNat ≠ st) :
          s₁.dgi st = s.dgi st ∧ s₁.lru st = s.lru st := by
        rw [← hs₁]
        exact ⟨Function.update_of_ne hst.symm _ _, Function.update_of_ne hst.symm _ _⟩
      have hkept₁ : s₁.Kept := by
        intro st
        rw [hhot₁]
        by_cases hst : (L.stateOf r.rid).toNat = st
        · subst hst
          rw [hself.1, hself.2]
          exact hkept
        · rw [(hother st hst).1, (hother st hst).2]
          exact hs st
      have hres₁ : r.ResolvedIn L s s₁ o₁ := by
        refine ⟨slotOf, swaps, ?_⟩
        rw [hself.1, hself.2]
        exact hres
      have happart' (r' : Run) (hr' : r' ∈ rs) (hhost' : L.Hosts r') :
          (L.stateOf r.rid).toNat ≠ (L.stateOf r'.rid).toNat :=
        hhost.toNat_ne hhost' (hapart.1 r' hr' hhost hhost')
      obtain ⟨o', s', heq', hhot', hkept', hres', hother', hstay'⟩ :=
        ih hrow' hdisj.2 hunion' hapart.2 (hhot₁ ▸ hhot) hkept₁ o₁
      refine ⟨o', s', ?_, hhot'.trans hhot₁, hkept', ?_, ?_, ?_⟩
      · rw [List.foldlM_cons, heq]
        exact heq'
      · intro r' hr' hhost'
        rcases List.mem_cons.mp hr' with rfl | hmem
        · have hlast := hother' _ fun r'' hr'' hhost'' => (happart' r'' hr'' hhost'').symm
          exact hstay' _ s s' hstop hdisj.1 (hres₁.congr rfl ⟨rfl, rfl⟩ hlast)
        · have hfirst := hother _ (happart' r' hmem hhost')
          exact (hres' r' hmem hhost').congr hhot₁.symm ⟨hfirst.1.symm, hfirst.2.symm⟩ ⟨rfl, rfl⟩
      · intro st hst
        have hlater := hother' st fun r' hr' => hst r' (List.mem_cons_of_mem _ hr')
        have hfirst := hother st (hst r List.mem_cons_self hhost)
        exact ⟨hlater.1.trans hfirst.1, hlater.2.trans hfirst.2⟩
      · intro r₀ s₁ s₂ hstop₀ hdisj₀ hres₀
        obtain ⟨slotOf, swaps, hres₀⟩ := hres₀
        refine hstay' r₀ s₁ s₂ hstop₀ (fun r' hr' => hdisj₀ r' (List.mem_cons_of_mem _ hr')) ?_
        exact ⟨slotOf, swaps, hres₀.of_same hL hsame hstop₀ (hdisj₀ r List.mem_cons_self)⟩
    · obtain ⟨o₁, heq, hsame⟩ := Run.resolve_plain (o := o) (s := s) hL hhost
      obtain ⟨o', s', heq', hhot', hkept', hres', hother', hstay'⟩ :=
        ih hrow' hdisj.2 hunion' hapart.2 hhot hs o₁
      refine ⟨o', s', ?_, hhot', hkept', ?_, ?_, ?_⟩
      · rw [List.foldlM_cons, heq]
        exact heq'
      · intro r' hr' hhost'
        rcases List.mem_cons.mp hr' with rfl | hmem
        · exact absurd hhost' hhost
        · exact hres' r' hmem hhost'
      · intro st hst
        exact hother' st fun r' hr' => hst r' (List.mem_cons_of_mem _ hr')
      · intro r₀ s₁ s₂ hstop₀ hdisj₀ hres₀
        obtain ⟨slotOf, swaps, hres₀⟩ := hres₀
        refine hstay' r₀ s₁ s₂ hstop₀ (fun r' hr' => hdisj₀ r' (List.mem_cons_of_mem _ hr')) ?_
        exact ⟨slotOf, swaps, hres₀.of_same hL hsame hstop₀ (hdisj₀ r List.mem_cons_self)⟩

/-- What a step gives: it covers every row, resolves the runs with host references, and leaves the other
state rows alone. -/
structure Resolves (L : Launch) (s s' : Store) (o : Out) : Prop where
  covers : ∀ row id, L.requestIds[row]? = some id →
    ∃ r ∈ L.runs, r.row ≤ row ∧ row < r.stop ∧ r.rid = id
  resolved : ∀ r ∈ L.runs, L.Hosts r → r.ResolvedIn L s s' o
  other : ∀ st, (∀ r ∈ L.runs, L.Hosts r → (L.stateOf r.rid).toNat ≠ st) →
    s'.dgi st = s.dgi st ∧ s'.lru st = s.lru st

/-- A step of a consistent store returns, and keeps it so. -/
lemma Fits.resolve {unionRows : ℕ} (h : L.Fits unionRows) {s : Store} (hhot : unionRows ≤ s.hot) (hs : s.Kept) :
    ∃ o s', L.resolve s = some (o, s') ∧ s'.hot = s.hot ∧ s'.Kept ∧ L.Resolves s s' o := by
  have hrow : ∀ r ∈ L.runs, r.row ≤ r.stop := fun r hr => Nat.le_of_lt (of_mem_runsFrom hr).2
  obtain ⟨o, s', heq, hhot', hkept, hres, hother, _⟩ :=
    resolve_runs h.shape hrow (runsFrom_pairwise _ _) h.union h.apart hhot hs Out.empty
  refine ⟨o, s', heq, hhot', hkept, ?_, hres, hother⟩
  intro row id hid
  obtain ⟨r, hr, hlo, hhi, hrid⟩ := runsFrom_covers 0 hid
  rw [Nat.zero_add] at hlo hhi
  exact ⟨r, hr, hlo, hhi, hrid⟩

end Launch

/-! ## An invalidation -/

namespace Invalidation
variable {I : Invalidation}

/-- What an invalidation gives: the written slots are in no slot of their request, and nothing else
changes. -/
structure Drops (I : Invalidation) (s s' : Store) : Prop where
  hot : s'.hot = s.hot
  lru : s'.lru = s.lru
  gone : ∀ token st written, I.target token = some (st, written) → written ∉ s'.dgi st
  length : ∀ st, (s'.dgi st).length = (s.dgi st).length
  other : ∀ (st i : ℕ) (v : ℤ), (s.dgi st)[i]? = some v → (s'.dgi st)[i]? = some v ∨
    (∃ token, I.target token = some (st, v)) ∧ (s'.dgi st)[i]? = some (-1)

/-- A written slot is not negative, and its token is one of the written ones. -/
lemma of_target {token st : ℕ} {written : ℤ} (h : I.target token = some (st, written)) :
    0 ≤ written ∧ token < I.writtenSlots.length := by
  simp only [target, Option.bind_eq_bind, Option.bind_eq_some_iff] at h
  obtain ⟨req, _, h⟩ := h
  rw [Option.ite_none_left_eq_some, Option.bind_eq_some_iff] at h
  obtain ⟨_, state, _, h⟩ := h
  rw [Option.bind_eq_some_iff] at h
  obtain ⟨w, hw, h⟩ := h
  rw [Option.ite_none_left_eq_some] at h
  obtain ⟨hcond, h⟩ := h
  cases h
  refine ⟨Int.not_lt.mp fun hlt => hcond (Or.inr (Or.inr hlt)), (List.getElem?_eq_some_iff.mp hw).1⟩

/-- A block drops the written slot of its token from its chunk. -/
def Hit (I : Invalidation) (st i : ℕ) (v : ℤ) (b : ℕ × ℕ) : Prop :=
  I.target b.1 = some (st, v) ∧ b.2 * 1024 ≤ i ∧ i < b.2 * 1024 + 1024

lemma getElem?_block (I : Invalidation) (s : Store) (b : ℕ × ℕ) (st i : ℕ) {v : ℤ}
    (h : (s.dgi st)[i]? = some v) : I.Hit st i v b ∧ ((I.block s b).dgi st)[i]? = some (-1) ∨
      ¬I.Hit st i v b ∧ ((I.block s b).dgi st)[i]? = some v := by
  rw [block]
  cases htarget : I.target b.1 with
  | none =>
    refine Or.inr ⟨fun hit => ?_, h⟩
    rw [hit.1] at htarget
    cases htarget
  | some x =>
    obtain ⟨st', written⟩ := x
    dsimp only
    by_cases hst : st = st'
    · subst hst
      rw [Function.update_self, dropChunk, List.getElem?_mapIdx, h, Option.map_some]
      split
      next hcond =>
        obtain ⟨hlo, hhi, rfl⟩ := hcond
        exact Or.inl ⟨⟨htarget, hlo, hhi⟩, rfl⟩
      next hcond =>
        refine Or.inr ⟨fun hit => hcond ⟨hit.2.1, hit.2.2, ?_⟩, rfl⟩
        have heq := hit.1
        rw [htarget] at heq
        cases heq
        rfl
    · rw [Function.update_of_ne hst]
      refine Or.inr ⟨fun hit => ?_, h⟩
      have heq := hit.1
      rw [htarget] at heq
      cases heq
      exact hst rfl

/-- Whatever the order of the blocks: an entry is dropped if one of them drops it. -/
lemma getElem?_run (I : Invalidation) (bs : List (ℕ × ℕ)) (s : Store) (st i : ℕ) {v : ℤ}
    (h : (s.dgi st)[i]? = some v) :
    (∃ b ∈ bs, I.Hit st i v b) ∧ ((I.run bs s).dgi st)[i]? = some (-1) ∨
      (∀ b ∈ bs, ¬I.Hit st i v b) ∧ ((I.run bs s).dgi st)[i]? = some v := by
  induction bs generalizing s v with
  | nil => exact Or.inr ⟨fun b hb => absurd hb List.not_mem_nil, h⟩
  | cons b bs ih =>
    rw [run, List.foldl_cons, ← run]
    rcases I.getElem?_block s b st i h with ⟨hhit, hblock⟩ | ⟨hnot, hblock⟩
    · refine Or.inl ⟨⟨b, List.mem_cons_self, hhit⟩, ?_⟩
      rcases ih (I.block s b) hblock with ⟨_, hrest⟩ | ⟨_, hrest⟩
      · exact hrest
      · exact hrest
    · rcases ih (I.block s b) hblock with ⟨⟨b', hb', hhit⟩, hrest⟩ | ⟨hnone, hrest⟩
      · exact Or.inl ⟨⟨b', List.mem_cons_of_mem _ hb', hhit⟩, hrest⟩
      · exact Or.inr ⟨List.forall_mem_cons.mpr ⟨hnot, hnone⟩, hrest⟩

/-- No block touches anything but the rows of the table. -/
lemma run_same (I : Invalidation) (bs : List (ℕ × ℕ)) (s : Store) :
    (I.run bs s).hot = s.hot ∧ (I.run bs s).lru = s.lru ∧
      ∀ st, ((I.run bs s).dgi st).length = (s.dgi st).length := by
  have hblock (s : Store) (b : ℕ × ℕ) : (I.block s b).hot = s.hot ∧ (I.block s b).lru = s.lru ∧
      ∀ st, ((I.block s b).dgi st).length = (s.dgi st).length := by
    rw [block]
    cases I.target b.1 with
    | none => exact ⟨rfl, rfl, fun _ => rfl⟩
    | some x =>
      refine ⟨rfl, rfl, fun st => ?_⟩
      by_cases hst : st = x.1
      · subst hst
        dsimp only
        rw [Function.update_self, dropChunk, List.length_mapIdx]
      · dsimp only
        rw [Function.update_of_ne hst]
  induction bs generalizing s with
  | nil => exact ⟨rfl, rfl, fun _ => rfl⟩
  | cons b bs ih =>
    obtain ⟨h1, h2, h3⟩ := ih (I.block s b)
    obtain ⟨h1', h2', h3'⟩ := hblock s b
    exact ⟨h1.trans h1', h2.trans h2', fun st => (h3 st).trans (h3' st)⟩

/-- All blocks of the launch, in whatever order. -/
lemma run_drops {order : List (ℕ × ℕ)} {s : Store} (horder : order.Perm (I.blocks s.hot)) (hs : s.Kept) :
    I.Drops s (I.run order s) := by
  obtain ⟨hhot, hlru, hlength⟩ := I.run_same order s
  refine ⟨hhot, hlru, ?_, hlength, ?_⟩
  · intro token st written htarget hmem
    obtain ⟨hpos, htoken⟩ := of_target htarget
    obtain ⟨i, hi, heq⟩ := List.mem_iff_getElem.mp hmem
    rw [hlength, (hs st).length] at hi
    have hafter : ((I.run order s).dgi st)[i]? = some written := by
      rw [← heq]
      exact List.getElem?_eq_getElem _
    obtain ⟨v, hv⟩ : ∃ v, (s.dgi st)[i]? = some v :=
      ⟨_, List.getElem?_eq_getElem ((hs st).length ▸ hi)⟩
    rcases I.getElem?_run order s st i hv with ⟨_, hrun⟩ | ⟨hnone, hrun⟩
    · rw [hrun, Option.some_inj] at hafter
      omega
    · rw [hrun, Option.some_inj] at hafter
      subst hafter
      refine hnone (token, i / 1024) ?_ ⟨htarget, by omega, by omega⟩
      rw [horder.mem_iff, blocks, List.product, List.mem_flatMap]
      refine ⟨token, List.mem_range.mpr htoken, List.mem_map_of_mem (List.mem_range.mpr ?_)⟩
      omega
  · intro st i v hv
    rcases I.getElem?_run order s st i hv with ⟨⟨b, _, hhit⟩, hrun⟩ | ⟨_, hrun⟩
    · exact Or.inr ⟨⟨b.1, hhit.1⟩, hrun⟩
    · exact Or.inl hrun

/-- The store stays consistent. -/
lemma Drops.kept {s s' : Store} (h : I.Drops s s') (hs : s.Kept) : s'.Kept := by
  intro st
  rw [h.hot, h.lru]
  refine ⟨(h.length st).trans (hs st).length, (hs st).perm, ?_⟩
  have hback (i : ℕ) (b : ℤ) (hi : (s'.dgi st)[i]? = some b) (hb : 0 ≤ b) : (s.dgi st)[i]? = some b := by
    have hlt := (List.getElem?_eq_some_iff.mp hi).1
    rw [h.length st] at hlt
    rcases h.other st i _ (List.getElem?_eq_getElem hlt) with heq | ⟨_, heq⟩
    · rw [heq] at hi
      rw [← hi]
      exact List.getElem?_eq_getElem hlt
    · rw [heq, Option.some_inj] at hi
      omega
  intro i j b hi hj hb
  exact (hs st).injective i j b (hback i b hi hb) (hback j b hj hb) hb

end Invalidation
end SuffixHybrid.HiSparse
