import SuffixHybrid.HiSparse.Residency
import SuffixHybrid.Lib.Slice

/-!
# A step by its entries

`Launch.Resolves` says what a step gives for its runs. Here it is said for the entries of the launch, as
`HostAt` names them: an entry that refers to a host row is mapped to the slot that holds it, and the swap
lists of a request's rows, one after the other, are the rows that are swapped in.
-/

namespace SuffixHybrid.HiSparse
open Lib

/-! ## Runs -/

/-- The first run starts with the first row. -/
lemma row_of_runsFrom_cons {ids : List ℤ} {k : ℕ} {r : Run} {rs : List Run} (h : runsFrom k ids = r :: rs) :
    r.row = k := by
  cases ids with
  | nil => cases h
  | cons id ids =>
    rcases runsFrom_cons k id ids with heq | ⟨_, _, _, _, heq⟩
    · rw [heq] at h
      cases h
      rfl
    · rw [heq] at h
      cases h
      rfl

/-- A run has its id in all of its rows, and not in the row behind it. -/
lemma runsFrom_spec {ids : List ℤ} {k : ℕ} {r : Run} (h : r ∈ runsFrom k ids) :
    (∀ i, r.row ≤ k + i → k + i < r.stop → ids[i]? = some r.rid) ∧
      ∀ i, k + i = r.stop → ids[i]? ≠ some r.rid := by
  induction ids generalizing k r with
  | nil => cases h
  | cons id ids ih =>
    have htail {r : Run} (hr : r ∈ runsFrom (k + 1) ids) :
        (∀ i, r.row ≤ k + i → k + i < r.stop → (id :: ids)[i]? = some r.rid) ∧
          ∀ i, k + i = r.stop → (id :: ids)[i]? ≠ some r.rid := by
      have hpos := of_mem_runsFrom hr
      constructor
      · rintro (_ | i) hlo hhi
        · omega
        · exact (ih hr).1 i (by omega) (by omega)
      · rintro (_ | i) hstop
        · omega
        · exact (ih hr).2 i (by omega)
    rw [runsFrom] at h
    cases hruns : runsFrom (k + 1) ids with
    | nil =>
      rw [hruns] at h
      cases List.mem_singleton.mp h
      have hids : ids = [] := by
        cases ids with
        | nil => rfl
        | cons id' ids =>
          have hfirst : (id' :: ids)[0]? = some id' := rfl
          obtain ⟨r, hr, _⟩ := runsFrom_covers (k + 1) hfirst
          rw [hruns] at hr
          cases hr
      rw [hids]
      constructor
      · rintro (_ | i) hlo hhi
        · rfl
        · dsimp only at hhi
          omega
      · rintro (_ | i) hstop
        · dsimp only at hstop
          omega
        · exact fun heq => by cases heq
    | cons r' rs =>
      have hr' : r' ∈ runsFrom (k + 1) ids := hruns ▸ List.mem_cons_self
      have hrow := row_of_runsFrom_cons hruns
      rw [hruns] at h
      dsimp only at h
      split at h
      next hsame =>
        rcases List.mem_cons.mp h with rfl | hmem
        · have hpos := of_mem_runsFrom hr'
          constructor
          · rintro (_ | i) hlo hhi
            · rfl
            · rw [← hsame]
              exact (htail hr').1 (i + 1) (by omega) hhi
          · intro i hstop heq
            exact (htail hr').2 i hstop (heq.trans (congrArg some hsame.symm))
        · exact htail (hruns ▸ List.mem_cons_of_mem _ hmem)
      next hother =>
        rcases List.mem_cons.mp h with rfl | hmem
        · have hnext := (htail hr').1 1 (by omega) (by have := (of_mem_runsFrom hr').2; omega)
          constructor
          · rintro (_ | i) hlo hhi
            · rfl
            · dsimp only at hhi
              omega
          · intro i hstop heq
            dsimp only at hstop
            have hi : i = 1 := by omega
            subst hi
            rw [hnext, Option.some_inj] at heq
            exact hother heq
        · exact htail (hruns ▸ hmem)

/-! ## Entries -/

namespace Launch
variable {L : Launch} {r : Run}

lemma requestIds_of_mem (hr : r ∈ L.runs) {row : ℕ} (hlo : r.row ≤ row) (hhi : row < r.stop) :
    L.requestIds[row]? = some r.rid := (runsFrom_spec hr).1 row (by omega) (by omega)

lemma requestIds_stop (hr : r ∈ L.runs) : L.requestIds[r.stop]? ≠ some r.rid :=
  (runsFrom_spec hr).2 r.stop (by omega)

/-- The entry of a request in a row and a column refers to a host row. -/
def HostAt (L : Launch) (id : ℤ) (row col : ℕ) (g : ℤ) : Prop :=
  L.requestIds[row]? = some id ∧ 0 ≤ L.stateOf id ∧
    ∃ t, (L.gidx[row]?.bind fun ts => ts[col]?) = some t ∧
      ¬(L.residentRow (L.stateOf id).toNat t ≥ 0 ∨ L.hostRow id t < 0) ∧ L.hostRow id t = g

lemma HostAt.nonneg {id : ℤ} {row col : ℕ} {g : ℤ} (h : L.HostAt id row col g) : 0 ≤ g := by
  obtain ⟨_, _, t, _, hcond, rfl⟩ := h
  exact Int.not_lt.mp fun hlt => hcond (Or.inr hlt)

/-- The token of an entry in the rows of a run. -/
lemma mem_tokens_iff (hL : L.Shape) {t : ℤ} {i col : ℕ} (hi : r.row + i < r.stop) (hcol : col < L.topK) :
    (t, i * L.topK + col) ∈ L.tokens r ↔ (L.gidx[r.row + i]?.bind fun ts => ts[col]?) = some t := by
  have hcolumns : ∀ row ∈ (L.gidx.drop r.row).take (r.stop - r.row), row.length = L.topK := fun row hrow =>
    hL.columns row (List.mem_of_mem_drop (List.mem_of_mem_take hrow))
  rw [tokens, List.mem_zipIdx_iff_getElem?, getElem?_flatten hcolumns i hcol, List.getElem?_take,
    if_pos (by omega), List.getElem?_drop]

/-- An entry that refers to a host row is a host reference of the run of its row. -/
lemma HostAt.exists_run (hL : L.Shape) {id : ℤ} {row col : ℕ} {g : ℤ} (h : L.HostAt id row col g) :
    ∃ r ∈ L.runs, r.rid = id ∧ r.row ≤ row ∧ row < r.stop ∧
      ∃ e ∈ L.hostRefs r, L.place r e.1 = (row, col) ∧ e.2 = g := by
  obtain ⟨hid, hst, t, ht, hcond, rfl⟩ := h
  obtain ⟨r, hr, hlo, hhi, rfl⟩ := runsFrom_covers 0 hid
  rw [Nat.zero_add] at hlo hhi
  obtain ⟨ts, hts, htcol⟩ := Option.bind_eq_some_iff.mp ht
  have hcol : col < L.topK := by
    rw [← hL.columns ts (List.mem_of_getElem? hts)]
    exact (List.getElem?_eq_some_iff.mp htcol).1
  have hplace : L.place r ((row - r.row) * L.topK + col) = (row, col) := by
    have hpos : 0 < L.topK := Nat.zero_lt_of_lt hcol
    rw [place, Nat.add_comm (_ * _), Nat.add_mul_div_right _ _ hpos, Nat.div_eq_of_lt hcol,
      Nat.add_mul_mod_self_right, Nat.mod_eq_of_lt hcol, Nat.zero_add, Nat.add_sub_cancel' hlo]
  refine ⟨r, hr, rfl, hlo, hhi, ((row - r.row) * L.topK + col, L.hostRow r.rid t), ?_, hplace, rfl⟩
  refine mem_refs_iff.mpr ⟨t, ?_, hcond, rfl⟩
  rw [mem_tokens_iff hL (by omega) hcol, Nat.add_sub_cancel' hlo]
  exact ht

/-- A host reference of a run is an entry of one of its rows. -/
lemma hostAt_of_mem (hL : L.Shape) (hr : r ∈ L.runs) (hst : 0 ≤ L.stateOf r.rid) {e : ℕ × ℤ}
    (he : e ∈ L.hostRefs r) : L.HostAt r.rid (L.place r e.1).1 (L.place r e.1).2 e.2 := by
  obtain ⟨t, hmem, hcond, heq⟩ := mem_refs_iff.mp he
  have hlt := lt_of_mem_tokens hL hmem
  have hpos : 0 < L.topK := Nat.pos_of_ne_zero fun h => by simp [h] at hlt
  obtain ⟨hlo, hhi⟩ := place_mem hlt
  refine ⟨requestIds_of_mem hr hlo hhi, hst, t, ?_, hcond, heq⟩
  rw [place, ← mem_tokens_iff hL hhi (Nat.mod_lt _ hpos), Nat.div_add_mod']
  exact hmem

/-- A step uses the slots that hold the rows of its entries. -/
lemma uses_iff_hostAt (hL : L.Shape) {dgi : List ℤ} {st slot : ℕ} : L.Uses dgi st slot ↔
    ∃ id row col g, L.HostAt id row col g ∧ L.stateOf id = st ∧ dgi[slot]? = some g := by
  constructor
  · rintro ⟨r, hr, hst, e, he, hin⟩
    exact ⟨_, _, _, _, hostAt_of_mem hL hr (hst ▸ Int.natCast_nonneg st) he, hst, hin⟩
  · rintro ⟨id, row, col, g, hat, hst, hin⟩
    obtain ⟨r, hr, rfl, _, _, e, he, _, rfl⟩ := hat.exists_run hL
    exact ⟨r, hr, hst, e, he, hin⟩

/-! ## The requests of a launch -/

/-- The rows of a request lie together, there are at most `n` of them, and no other request has its state
row. -/
structure Grouped (L : Launch) (n : ℕ) : Prop where
  shape : L.Shape
  together : ∀ {i j k : ℕ} {id : ℤ}, 0 ≤ L.stateOf id → i ≤ j → j ≤ k → L.requestIds[i]? = some id →
    L.requestIds[k]? = some id → L.requestIds[j]? = some id
  few : ∀ {i k : ℕ} {id : ℤ}, 0 ≤ L.stateOf id → L.requestIds[i]? = some id →
    L.requestIds[k]? = some id → k < i + n
  apart : ∀ {i k : ℕ} {id id' : ℤ}, 0 ≤ L.stateOf id → L.stateOf id = L.stateOf id' →
    L.requestIds[i]? = some id → L.requestIds[k]? = some id' → id = id'

namespace Grouped
variable {n : ℕ} (h : L.Grouped n)
include h

/-- A state row belongs to one run. -/
lemma run_eq {r r' : Run} (hr : r ∈ L.runs) (hr' : r' ∈ L.runs) (hst : 0 ≤ L.stateOf r.rid)
    (hsame : L.stateOf r.rid = L.stateOf r'.rid) : r = r' := by
  have hid {r : Run} (hr : r ∈ L.runs) : L.requestIds[r.row]? = some r.rid :=
    requestIds_of_mem hr (Nat.le_refl _) (of_mem_runsFrom hr).2
  have hrid := h.apart hst hsame (hid hr) (hid hr')
  -- of two runs of one request, the row behind the first would be in it
  have hnot {r r' : Run} (hr : r ∈ L.runs) (hr' : r' ∈ L.runs) (hst : 0 ≤ L.stateOf r.rid)
      (hrid : r.rid = r'.rid) (hle : r.stop ≤ r'.row) : False :=
    requestIds_stop hr (h.together hst (Nat.le_of_lt (of_mem_runsFrom hr).2) hle (hid hr) (hrid ▸ hid hr'))
  by_contra hne
  have hsymm : Std.Symm fun r r' : Run => r.stop ≤ r'.row ∨ r'.stop ≤ r.row := ⟨fun _ _ => Or.symm⟩
  have hdisj : L.runs.Pairwise fun r r' => r.stop ≤ r'.row ∨ r'.stop ≤ r.row :=
    (runsFrom_pairwise L.requestIds 0).imp Or.inl
  rcases hdisj.forall hr hr' hne with hle | hle
  · exact hnot hr hr' hst hrid hle
  · exact hnot hr' hr (hrid ▸ hst) hrid.symm hle

/-- The union of a request is no larger than its rows. -/
lemma fits : L.Fits (n * L.topK) where
  shape := h.shape
  union r hr hhost := by
    have hpos := (of_mem_runsFrom hr).2
    have hlast := h.few hhost.1 (requestIds_of_mem hr (Nat.le_refl _) hpos)
      (requestIds_of_mem hr (Nat.le_sub_one_of_lt hpos) (Nat.sub_one_lt_of_lt hpos))
    calc ((L.hostRefs r).map Prod.snd).dedup.length
        ≤ (L.hostRefs r).length := (List.dedup_sublist _).length_le.trans (List.length_map _).le
      _ ≤ (L.tokens r).length := List.length_filterMap_le _ _
      _ ≤ (r.stop - r.row) * L.topK := length_tokens_le h.shape r
      _ ≤ n * L.topK := Nat.mul_le_mul_right _ (by omega)
  apart := by
    refine (runsFrom_pairwise L.requestIds 0).imp_of_mem fun hr hr' hle hhost _ hsame => ?_
    have hpos := (of_mem_runsFrom hr).2
    rw [← h.run_eq hr hr' hhost.1 hsame] at hle
    omega

variable {s s' : Store} {o : Out} (hres : L.Resolves s s' o)
include hres

/-- An entry that refers to a host row is mapped to the slot that holds it. -/
lemma mapped {id : ℤ} {row col : ℕ} {g : ℤ} (hat : L.HostAt id row col g) : ∃ slot, slot < s.hot ∧
    (s'.dgi (L.stateOf id).toNat)[slot]? = some g ∧ o.attn row col = L.attnOf (L.physical id slot) := by
  obtain ⟨r, hr, rfl, _, _, e, he, hplace, rfl⟩ := hat.exists_run h.shape
  obtain ⟨slotOf, swaps, hr'⟩ := hres.resolved r hr ⟨hat.2.1, List.ne_nil_of_mem he⟩
  obtain ⟨hlt, hin, _, hattn⟩ := hr'.mapped e he
  rw [hplace] at hattn
  exact ⟨_, hlt, hin, hattn⟩

/-- A slot that holds a row of the step keeps it. -/
lemma stays {id : ℤ} {row col : ℕ} {g : ℤ} (hat : L.HostAt id row col g) {slot : ℕ}
    (hin : (s.dgi (L.stateOf id).toNat)[slot]? = some g) :
    (s'.dgi (L.stateOf id).toNat)[slot]? = some g := by
  obtain ⟨r, hr, rfl, _, _, e, he, _, rfl⟩ := hat.exists_run h.shape
  obtain ⟨slotOf, swaps, hr'⟩ := hres.resolved r hr ⟨hat.2.1, List.ne_nil_of_mem he⟩
  rw [hr'.not_taken, hin]
  intro htaken
  obtain ⟨x, hx, rfl⟩ := List.mem_map.mp htaken
  exact (hr'.kept x hx).2 e he hin

/-- A slot with another row after the step is used by it. -/
lemma uses_of_changed (hs : s.Kept) {st slot : ℕ} (hchanged : (s'.dgi st)[slot]? ≠ (s.dgi st)[slot]?) :
    L.Uses (s'.dgi st) st slot := by
  rcases Timed.exists_run_or_not L st with ⟨r, hr, hhost, rfl⟩ | hst
  · obtain ⟨slotOf, swaps, hr'⟩ := hres.resolved r hr hhost
    have htaken : slot ∈ swaps.map Prod.snd := by
      by_contra hnot
      exact hchanged (hr'.not_taken hnot)
    obtain ⟨x, hx, rfl⟩ := List.mem_map.mp htaken
    rw [h.fits.uses_iff hr hhost, hr'.holds_iff (hs _) (hr'.kept x hx).1]
    exact Or.inl htaken
  · exact absurd (congrArg (·[slot]?) (hres.other st hst).1) hchanged

end Grouped
end Launch
end SuffixHybrid.HiSparse
