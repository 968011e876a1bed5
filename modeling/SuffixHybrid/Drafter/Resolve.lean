import SuffixHybrid.Drafter.Basic
import SuffixHybrid.Proposer.Tables

/-!
# The real drafts

A draft of the asynchronous drafter is real where the row has gained what the candidate foretold, and
then it is the next token of the candidate (`Published`). How far that can reach is known without the
length of the row, so the trimmed schedule holds every real draft (`real_drafts_covered`).
-/

namespace SuffixHybrid
open Lib

/-! ## A row -/

section row
variable {lc k : ℕ} {cand row : List Token} {clen anchor total : ℕ}

/-- The candidate is aligned when the row has gained its first tokens. -/
lemma aligned_iff (htotal : total ≤ row.length) :
    PackRow.aligned lc ⟨cand, anchor, clen⟩ total row = true ↔
      anchor < total ∧ ∀ a < lc, a < total - anchor → row.getD (anchor + a) 0 = cand.getD a 0 := by
  unfold PackRow.aligned
  simp only [Bool.and_eq_true, decide_eq_true_eq, List.all_eq_true, List.mem_range, Bool.or_eq_true,
    beq_iff_eq]
  have hone : (total : ℤ) - anchor ≥ 1 ↔ anchor < total := by omega
  rw [hone, and_comm]
  refine and_congr_right fun hgain => forall₂_congr fun a _ => ?_
  have hunseen : (a : ℤ) ≥ total - anchor ↔ ¬ a < total - anchor := by omega
  rw [hunseen, or_comm, ← imp_iff_not_or]
  refine imp_congr_right fun hseen => ?_
  -- a seen position lies within the row, so it is not clamped
  have hpos : (clamp ((anchor : ℤ) + a) 0 (row.length - 1)).toNat = anchor + a := by
    unfold clamp
    omega
  rw [hpos]

lemma take_drop_eq_iff {n : ℕ} (hrow : anchor + n ≤ row.length) (hcand : n ≤ cand.length) :
    (row.drop anchor).take n = cand.take n ↔ ∀ a < n, row.getD (anchor + a) 0 = cand.getD a 0 := by
  constructor
  · intro h a ha
    have hget := congrArg (·[a]?) h
    simp only [List.getElem?_take_of_lt ha, List.getElem?_drop] at hget
    rw [List.getD_eq_getElem?_getD, List.getD_eq_getElem?_getD, hget]
  · intro h
    apply List.ext_getElem
    · simp only [List.length_take, List.length_drop]
      omega
    · intro a ha _
      have hlt : a < n := by
        rw [List.length_take] at ha
        omega
      have hget := h a hlt
      rw [List.getD_eq_getElem?_getD, List.getD_eq_getElem?_getD, List.getElem?_eq_getElem (by omega),
        List.getElem?_eq_getElem (by omega)] at hget
      rw [List.getElem_take, List.getElem_take, List.getElem_drop]
      exact hget

/-- What is published for a row of `total` tokens, from a candidate for its first `anchor` ones. -/
structure Published (k : ℕ) (cand : List Token) (clen anchor total : ℕ) (row : List Token)
    (out : Resolved) : Prop where
  drafts_length : out.drafts.length = k
  real_length : out.real.length = k
  real_iff : ∀ j < k, out.real[j]? = some true ↔ anchor < total ∧
    (row.drop anchor).take (total - anchor) = cand.take (total - anchor) ∧ total - anchor + j < clen
  draft : ∀ j : ℕ, out.real[j]? = some true → out.drafts[j]? = cand[total - anchor + j]? ∧
    total - anchor + j < cand.length
  filler : ∀ j : ℕ, out.real[j]? = some false → out.drafts[j]? = some 0
  isPrefix : ∀ i j : ℕ, i ≤ j → out.real[j]? = some true → out.real[i]? = some true
  count_le : out.real.count true ≤ AsyncSuffixDrafter.hostWidth k clen

lemma getElem?_real (pack : PackRow) (t : ℤ) {j : ℕ} (hj : j < k) :
    (resolveRow lc k pack t row).real[j]?
      = some (pack.aligned lc t row && decide (t - pack.anchor + j < pack.clen)) := by
  simp [resolveRow, List.getElem?_range hj]

lemma getElem?_drafts (pack : PackRow) (t : ℤ) {j : ℕ} (hj : j < k) :
    (resolveRow lc k pack t row).drafts[j]?
      = some (pack.cand.getD (clamp (t - pack.anchor + j) 0 (lc - 1)).toNat 0
        * (pack.aligned lc t row && decide (t - pack.anchor + j < pack.clen)).toNat) := by
  simp [resolveRow, List.getElem?_range hj]

/-- Real drafts end before the bound that holds for every length of the row. -/
lemma count_real_le {real : List Bool} {w : ℕ} (h : ∀ j : ℕ, real[j]? = some true → j < w) :
    real.count true ≤ w := by
  induction real generalizing w with
  | nil => exact Nat.zero_le w
  | cons b real ih =>
    cases b with
    | false =>
      rw [List.count_cons_of_ne (by simp)]
      exact ih fun j hj => Nat.lt_of_succ_lt (h (j + 1) hj)
    | true =>
      have hpos : 0 < w := h 0 rfl
      have hrest : real.count true ≤ w - 1 := ih fun j hj => by
        have hlt := h (j + 1) hj
        omega
      rw [List.count_cons_self]
      omega

/-- `resolve` publishes what the candidate foretold. -/
lemma published_resolveRow (hcand : cand.length = lc) (hclen : clen ≤ lc) (htotal : total ≤ row.length) :
    Published k cand clen anchor total row (resolveRow lc k ⟨cand, anchor, clen⟩ total row) := by
  have hlt {j : ℕ} {b : Bool} (h : (resolveRow lc k ⟨cand, anchor, clen⟩ total row).real[j]? = some b) :
      j < k := by
    have hin := (List.getElem?_eq_some_iff.mp h).1
    simpa [resolveRow] using hin
  have hreal (j : ℕ) (hj : j < k) :
      (resolveRow lc k ⟨cand, anchor, clen⟩ total row).real[j]? = some true ↔ anchor < total ∧
        (∀ a < lc, a < total - anchor → row.getD (anchor + a) 0 = cand.getD a 0) ∧
        total - anchor + j < clen := by
    rw [getElem?_real _ _ hj, Option.some_inj, Bool.and_eq_true, aligned_iff htotal, decide_eq_true_eq,
      and_assoc]
    refine and_congr_right fun hgain => and_congr_right fun _ => ?_
    dsimp only
    omega
  have hwidth (j : ℕ) (h : (resolveRow lc k ⟨cand, anchor, clen⟩ total row).real[j]? = some true) :
      j < AsyncSuffixDrafter.hostWidth k clen := by
    have hj := hlt h
    obtain ⟨hgain, _, hin⟩ := (hreal j hj).mp h
    unfold AsyncSuffixDrafter.hostWidth clamp
    omega
  exact {
    drafts_length := by simp [resolveRow]
    real_length := by simp [resolveRow]
    real_iff := fun j hj => by
      rw [hreal j hj]
      refine and_congr_right fun hgain => and_congr_left fun hin => ?_
      rw [take_drop_eq_iff (by omega) (by omega)]
      constructor
      · intro h a ha
        exact h a (by omega) ha
      · intro h a _ ha
        exact h a ha
    draft := fun j h => by
      have hj := hlt h
      have hin := ((hreal j hj).mp h).2.2
      have hgain := ((hreal j hj).mp h).1
      rw [getElem?_real _ _ hj] at h
      rw [getElem?_drafts _ _ hj, Option.some.inj h]
      have hpos : (clamp ((total : ℤ) - anchor + j) 0 (lc - 1)).toNat = total - anchor + j := by
        unfold clamp
        omega
      rw [hpos]
      have hlen : total - anchor + j < cand.length := by omega
      refine ⟨?_, hlen⟩
      rw [List.getD_eq_getElem?_getD, List.getElem?_eq_getElem hlen]
      simp
    filler := fun j h => by
      have hj := hlt h
      rw [getElem?_real _ _ hj] at h
      rw [getElem?_drafts _ _ hj, Option.some.inj h]
      simp
    isPrefix := fun i j hij h => by
      have hj := hlt h
      obtain ⟨hgain, hseen, hin⟩ := (hreal j hj).mp h
      exact (hreal i (by omega)).mpr ⟨hgain, hseen, by omega⟩
    count_le := count_real_le hwidth }

/-- A real draft stands before as many positions as there are real drafts. -/
lemma Published.lt_count {out : Resolved} (h : Published k cand clen anchor total row out) {j : ℕ}
    (hj : out.real[j]? = some true) : j < out.real.count true := by
  have hlt : j < out.real.length := (List.getElem?_eq_some_iff.mp hj).1
  have htake : out.real.take (j + 1) = List.replicate (j + 1) true := by
    apply List.eq_replicate_iff.mpr
    refine ⟨by rw [List.length_take]; omega, fun b hb => ?_⟩
    obtain ⟨i, hi⟩ := List.mem_iff_getElem?.mp hb
    have hin : i < j + 1 := by
      have hlen := (List.getElem?_eq_some_iff.mp hi).1
      rw [List.length_take] at hlen
      omega
    rw [List.getElem?_take_of_lt hin, h.isPrefix i j (by omega) hj] at hi
    exact (Option.some.inj hi).symm
  calc j < (out.real.take (j + 1)).count true := by rw [htake, List.count_replicate_self]; omega
    _ ≤ out.real.count true := (List.take_sublist _ _).count_le true

end row

/-! ## A batch -/

namespace AsyncSuffixDrafter
variable {d : AsyncSuffixDrafter} {x : StepInput} {sel : List Lagged} {packed : V2SuffixProposer.Packed}

/-- Rows of a batch, each at most once. -/
structure Selects (x : StepInput) (sel : List Lagged) : Prop where
  nodup : (sel.map (·.pos)).Nodup
  rid : ∀ e ∈ sel, x.ids[e.pos]? = some e.rid

lemma Selects.nodup_rids (h : Selects x sel) : (sel.map (·.rid)).Nodup := by
  apply List.Nodup.map_on _ (List.Nodup.of_map _ h.nodup)
  intro e he e' he' hrid
  have hpos : e.pos = e'.pos := by
    have hlt := (List.getElem?_eq_some_iff.mp (h.rid e he)).1
    apply (List.getElem?_inj hlt x.nodup).mp
    rw [h.rid e he, h.rid e' he', hrid]
  exact List.inj_on_of_nodup_map h.nodup he he' hpos

/-- The rows that `_absorb` selects. -/
lemma mem_absorb {e : Lagged} : e ∈ d.absorb x ↔ ∃ pd, d.pending = some pd ∧
    x.ids[e.pos]? = some e.rid ∧ x.idx[e.pos]? = some e.row ∧ d.lagged pd e.rid e.row = some e.total := by
  unfold absorb
  cases hpd : d.pending with
  | none => simp
  | some pd =>
    dsimp only
    rw [List.mem_filterMap]
    constructor
    · rintro ⟨⟨⟨rid, row⟩, pos⟩, hmem, hlag⟩
      obtain ⟨total, htotal, rfl⟩ := Option.map_eq_some_iff.mp hlag
      rw [List.mk_mem_zipIdx_iff_getElem?, List.getElem?_zip_eq_some] at hmem
      exact ⟨pd, rfl, hmem.1, hmem.2, htotal⟩
    · rintro ⟨pd', hpd', hid, hrow, hlag⟩
      cases hpd'
      refine ⟨((e.rid, e.row), e.pos), ?_, by simp [hlag]⟩
      rw [List.mk_mem_zipIdx_iff_getElem?, List.getElem?_zip_eq_some]
      exact ⟨hid, hrow⟩

lemma selects_absorb (d : AsyncSuffixDrafter) (x : StepInput) : Selects x (d.absorb x) where
  nodup := by
    unfold absorb
    split
    case h_1 => exact List.nodup_nil
    case h_2 pd _ =>
      have hpos : ((x.ids.zip x.idx).zipIdx.map Prod.snd).Nodup := by
        rw [List.zipIdx_map_snd]
        exact List.nodup_range'
      refine List.Nodup.sublist (map_filterMap_sublist ?_ _) hpos
      rintro ⟨⟨rid, row⟩, pos⟩ e he
      obtain ⟨total, _, rfl⟩ := Option.map_eq_some_iff.mp he
      rfl
  rid := fun e he => by
    obtain ⟨_, _, hrid, _⟩ := mem_absorb.mp he
    exact hrid

lemma read_lookupBatch (x : StepInput) (sel : List Lagged) :
    (lookupBatch x sel).read = .ok (sel.map (·.row), x.host, sel.map (·.total)) := by
  have hrows : (sel.map fun e => (e.row : ℤ)).map (fun i => (max i 0).toNat) = sel.map (·.row) := by
    rw [List.map_map]
    exact List.map_congr_left fun e _ => by simp
  simp [V2SuffixProposer.Batch.read, lookupBatch, hrows]

/-- The requests of a lookup are the selected rows, at the lengths of the snapshot. -/
lemma entries_lookup (sel : List Lagged) :
    V2SuffixProposer.entries (sel.map (·.rid)) (sel.map (·.row)) (sel.map (·.total))
      = sel.map fun e => { rid := e.rid, index := e.row, total := e.total } := by
  induction sel with
  | nil => rfl
  | cons e sel ih => exact congrArg (_ :: ·) ih

lemma packRow_of_selected (h : Selects x sel) {m : ℕ} {e : Lagged} {cand : List Token} {clen : ℕ}
    (he : sel[m]? = some e) (hcand : packed.drafts[m]? = some cand) (hclen : packed.widths[m]? = some clen) :
    packRow d.lc sel packed e.pos = { cand, anchor := e.total, clen } := by
  have hmem : (e, cand, clen) ∈ sel.zip (packed.drafts.zip packed.widths) := by
    apply List.mem_of_getElem? (i := m)
    rw [List.getElem?_zip_eq_some, List.getElem?_zip_eq_some]
    exact ⟨he, hcand, hclen⟩
  have hkeys : ((sel.zip (packed.drafts.zip packed.widths)).map fun e => e.1.pos).Nodup := by
    have hfst : ((sel.zip (packed.drafts.zip packed.widths)).map Prod.fst).map (·.pos)
        = (sel.zip (packed.drafts.zip packed.widths)).map fun e => e.1.pos := List.map_map
    rw [← hfst, List.zip_eq_zip_take_min, List.map_fst_zip (by simp)]
    exact h.nodup.sublist ((List.take_sublist _ _).map _)
  unfold packRow
  rw [Map.find?_of_nodup_keys (fun e : Lagged × List Token × ℕ => e.1.pos) hkeys hmem]

lemma packRow_of_unselected {pos : ℕ} (h : ∀ e ∈ sel, e.pos ≠ pos) :
    packRow d.lc sel packed pos = { cand := List.replicate d.lc 0, anchor := 0, clen := 0 } := by
  have hnone : (sel.zip (packed.drafts.zip packed.widths)).find? (fun e => e.1.pos = pos) = none := by
    rw [List.find?_eq_none]
    intro e he
    rw [decide_eq_true_eq]
    exact h e.1 (List.of_mem_zip he).1
  unfold packRow
  rw [hnone]

/-- The resolved row of a request. -/
lemma getElem?_resolved {pos : ℕ} {id : ReqId} {index : ℕ} {row : List Token} (hid : x.ids[pos]? = some id)
    (hindex : x.idx[pos]? = some index) (hrow : x.ats.rows[index]? = some row) :
    (d.resolved x sel packed)[pos]?
      = some (resolveRow d.lc d.k (packRow d.lc sel packed pos) (x.totals.getD index 0) row) := by
  have hlt : pos < x.ids.length := (List.getElem?_eq_some_iff.mp hid).1
  have hpack : (d.packRows x sel packed)[pos]? = some (packRow d.lc sel packed pos) := by
    rw [packRows, List.getElem?_map, List.getElem?_range hlt, Option.map_some]
  have htotal : x.rowTotals[pos]? = some (x.totals.getD index 0) := by
    rw [StepInput.rowTotals, List.getElem?_map, hindex, Option.map_some]
  have hzip : ((d.packRows x sel packed).zip (x.rowTotals.zip x.idx))[pos]?
      = some (packRow d.lc sel packed pos, x.totals.getD index 0, index) := by
    rw [List.getElem?_zip_eq_some, List.getElem?_zip_eq_some]
    exact ⟨hpack, htotal, hindex⟩
  have hget : x.ats.rows.getD index [] = row := by
    rw [List.getD_eq_getElem?_getD, hrow, Option.getD_some]
  rw [resolved, resolve, List.getElem?_map, hzip, Option.map_some]
  dsimp only
  rw [hget]

/-- The width table has the width of every row that was looked up, unless it is zero. -/
lemma hostWidth_le_lookup (h : Selects x sel) {m : ℕ} {e : Lagged} {clen : ℕ} (he : sel[m]? = some e)
    (hclen : packed.widths[m]? = some clen) (k : ℕ) :
    hostWidth k clen ≤ ((hostWidths k sel packed).lookup e.rid).getD 0 := by
  rcases Nat.eq_zero_or_pos (hostWidth k clen) with hzero | hpos
  · rw [hzero]
    exact Nat.zero_le _
  · have hmem : (e.rid, hostWidth k clen) ∈ (sel.map (·.rid)).zip (packed.widths.map (hostWidth k)) := by
      apply List.mem_of_getElem? (i := m)
      rw [List.getElem?_zip_eq_some, List.getElem?_map, List.getElem?_map, he, hclen]
      exact ⟨rfl, rfl⟩
    have hkeys := Map.nodup_keys_zip h.nodup_rids (packed.widths.map (hostWidth k))
    have hlookup : (hostWidths k sel packed).lookup e.rid = some (hostWidth k clen) := by
      apply Map.lookup_update_of_mem
      · exact hkeys.sublist (List.filter_sublist.map _)
      · rw [List.mem_filter, decide_eq_true_eq]
        exact ⟨hmem, hpos⟩
    rw [hlookup, Option.getD_some]

/-- The shape of what a lookup returns: for each row a candidate of `lc` tokens, zero beyond its length. -/
lemma candidate_shape [F64] (hp : d.proposer.Reachable) (hk : d.proposer.k = d.lc)
    (hu : d.proposer.uniformK = false) {proposer : V2SuffixProposer}
    (hcall : d.proposer.proposeSuffixOnly (lookupBatch x sel) = some (.ok packed, proposer)) {m : ℕ}
    {e : Lagged} (he : sel[m]? = some e) :
    ∃ cand clen, packed.drafts[m]? = some cand ∧ packed.widths[m]? = some clen ∧
      cand.length = d.lc ∧ clen ≤ d.lc ∧ (∀ tok ∈ cand.drop clen, tok = 0) ∧ 0 ≤ e.total := by
  obtain ⟨out, hout, _, _, _, hpacked⟩ := hp.closed.propose trivial (lookupBatch x sel)
    fun _ _ _ _ => trivial
  obtain rfl : out = (.ok packed, proposer) := Option.some.inj (hout.symm.trans hcall)
  have hshape := hpacked packed rfl
  rw [hk] at hshape
  have hlen : (lookupBatch x sel).requestIds.length = sel.length := List.length_map _
  have hlt : m < sel.length := (List.getElem?_eq_some_iff.mp he).1
  have hdrafts : m < packed.drafts.length := by rw [hshape.drafts_length, hlen]; exact hlt
  have hwidths : m < packed.widths.length := by rw [hshape.widths_length, hlen]; exact hlt
  have hcand := List.getElem?_eq_getElem hdrafts
  have hclen := List.getElem?_eq_getElem hwidths
  refine ⟨_, _, hcand, hclen, hshape.row_length _ (List.getElem_mem hdrafts),
    hshape.width_le _ (List.getElem_mem hwidths), hshape.ragged hu m _ _ hcand hclen, ?_⟩
  -- the call has returned, so the length of every row was within its bounds
  obtain ⟨out', hout', hexit⟩ := V2SuffixProposer.call_exit hp.inv (lookupBatch x sel)
  obtain rfl : out' = (.ok packed, proposer) := Option.some.inj (hout'.symm.trans hcall)
  cases hexit with
  | finished hread _ _ hsteps =>
    rw [read_lookupBatch] at hread
    cases hread
    rw [lookupBatch, entries_lookup] at hsteps
    exact (hsteps.within _ (List.mem_map_of_mem (List.mem_of_getElem? he))).1

/-- A trim keeps the tokens of a row up to the width of its request. -/
lemma trim_keeps (d : AsyncSuffixDrafter) {so : SchedulerOutput} {id : ReqId} {toks : List Token}
    (h : (id, toks) ∈ so.spec) {j : ℕ} (hj : j < d.trimWidth id toks) :
    ∃ toks', (id, toks') ∈ (d.trim so).spec ∧ toks'[j]? = toks[j]? := by
  unfold trim
  dsimp only
  split
  case isTrue => exact ⟨toks, h, rfl⟩
  case isFalse =>
    split
    case isTrue => exact ⟨toks, h, rfl⟩
    case isFalse =>
      refine ⟨toks.take (d.trimWidth id toks), ?_, List.getElem?_take_of_lt hj⟩
      rw [List.mem_filter]
      refine ⟨List.mem_map.mpr ⟨(id, toks), h, rfl⟩, ?_⟩
      have hle : d.trimWidth id toks ≤ toks.length := Nat.min_le_right _ _
      rw [decide_eq_true_eq, ← List.length_pos_iff, List.length_take]
      omega

/-- Whatever rows are looked up, at whatever lengths, and whatever the rows have become at the resolve: a
draft is real exactly where its row has gained the first tokens of the candidate and the candidate goes
on, it is the token of the candidate there, and the real drafts come first. Their number is bounded by
the host width of the request, so a schedule that is trimmed to it keeps every real draft. -/
theorem real_drafts_covered [F64] (hp : d.proposer.Reachable) (hk : d.proposer.k = d.lc)
    (hu : d.proposer.uniformK = false) (hsel : Selects x sel) {proposer : V2SuffixProposer}
    (hcall : d.proposer.proposeSuffixOnly (lookupBatch x sel) = some (.ok packed, proposer))
    {pos : ℕ} {id : ReqId} {index total : ℕ} {row : List Token} (hid : x.ids[pos]? = some id)
    (hindex : x.idx[pos]? = some index) (hrow : x.ats.rows[index]? = some row)
    (htotal : x.totals.getD index 0 = total) (hle : total ≤ x.ats.ncols) :
    ∃ out, (d.resolved x sel packed)[pos]? = some out ∧
      (∀ (m : ℕ) (e : Lagged), sel[m]? = some e → e.pos = pos → ∃ (anchor : ℕ) (cand : List Token)
        (clen : ℕ), e.total = anchor ∧ packed.drafts[m]? = some cand ∧ packed.widths[m]? = some clen ∧
        cand.length = 2 * d.k + 1 ∧ clen ≤ 2 * d.k + 1 ∧ (∀ tok ∈ cand.drop clen, tok = 0) ∧
        Published d.k cand clen anchor total row out) ∧
      ((∀ e ∈ sel, e.pos ≠ pos) →
        ∀ j < d.k, out.real[j]? = some false ∧ out.drafts[j]? = some 0) ∧
      out.real.count true ≤ ((hostWidths d.k sel packed).lookup id).getD 0 ∧
      ∀ d' : AsyncSuffixDrafter, d'.widths = hostWidths d.k sel packed →
        ∀ (so : SchedulerOutput) (toks : List Token), (id, toks) ∈ so.spec →
          ∀ j : ℕ, out.real[j]? = some true → j < toks.length →
            ∃ toks', (id, toks') ∈ (d'.trim so).spec ∧ toks'[j]? = toks[j]? := by
  have hlen : row.length = x.ats.ncols := x.ats.rect row (List.mem_of_getElem? hrow)
  rw [← hlen] at hle
  refine ⟨_, getElem?_resolved hid hindex hrow, ?_⟩
  rw [htotal]
  -- a row that was not looked up has the empty candidate
  by_cases hin : ∀ e ∈ sel, e.pos ≠ pos
  · rw [packRow_of_unselected hin]
    have hpub : Published d.k (List.replicate d.lc 0) 0 0 total row
        (resolveRow d.lc d.k ⟨List.replicate d.lc 0, 0, 0⟩ total row) :=
      published_resolveRow List.length_replicate (Nat.zero_le _) hle
    have hreal (j : ℕ) : (resolveRow d.lc d.k ⟨List.replicate d.lc 0, 0, 0⟩ total row).real[j]?
        ≠ some true := fun h => by
      have hj : j < d.k := by
        rw [← hpub.real_length]
        exact (List.getElem?_eq_some_iff.mp h).1
      exact absurd ((hpub.real_iff j hj).mp h).2.2 (Nat.not_lt_zero _)
    refine ⟨fun m e he hpos => absurd hpos (hin e (List.mem_of_getElem? he)), fun _ j hj => ?_, ?_, ?_⟩
    · have hfalse : (resolveRow d.lc d.k ⟨List.replicate d.lc 0, 0, 0⟩ total row).real[j]?
          = some false := by
        have hlt : j < (resolveRow d.lc d.k ⟨List.replicate d.lc 0, 0, 0⟩ total row).real.length := by
          rw [hpub.real_length]
          exact hj
        have hne := hreal j
        rw [List.getElem?_eq_getElem hlt] at hne ⊢
        rw [Option.some_inj]
        exact Bool.eq_false_iff.mpr fun h => hne (by rw [h])
      exact ⟨hfalse, hpub.filler j hfalse⟩
    · have hcount := hpub.count_le
      have hzero : hostWidth d.k 0 = 0 := by
        unfold hostWidth clamp
        omega
      omega
    · exact fun _ _ _ _ _ j h => absurd h (hreal j)
  · push Not at hin
    obtain ⟨e, he, rfl⟩ := hin
    obtain ⟨m, hm⟩ := List.mem_iff_getElem?.mp he
    obtain ⟨cand, clen, hcand, hclen, hlc, hle', hzero, hpos⟩ := candidate_shape hp hk hu hcall hm
    obtain ⟨anchor, hanchor⟩ := Int.eq_ofNat_of_zero_le hpos
    obtain rfl : e.rid = id := Option.some.inj ((hsel.rid e he).symm.trans hid)
    have hpub : Published d.k cand clen anchor total row
        (resolveRow d.lc d.k ⟨cand, anchor, clen⟩ total row) := published_resolveRow hlc hle' hle
    rw [packRow_of_selected hsel hm hcand hclen, hanchor]
    have hwidth := hpub.count_le.trans (hostWidth_le_lookup hsel hm hclen d.k)
    refine ⟨fun m' e' he' heq => ?_, fun h => absurd rfl (h e he), hwidth, ?_⟩
    · obtain rfl : e' = e := List.inj_on_of_nodup_map hsel.nodup (List.mem_of_getElem? he') he heq
      obtain rfl : m' = m := by
        have hnodup := List.Nodup.of_map _ hsel.nodup
        apply (List.getElem?_inj (List.getElem?_eq_some_iff.mp he').1 hnodup).mp
        rw [he', hm]
      exact ⟨anchor, cand, clen, hanchor, hcand, hclen, hlc, hle', hzero, hpub⟩
    · intro d' hd' so toks htoks j hreal hj
      apply d'.trim_keeps htoks
      have hall : j < (hostWidths d.k sel packed |>.lookup e.rid).getD 0 :=
        lt_of_lt_of_le (hpub.lt_count hreal) hwidth
      rw [trimWidth, hd']
      omega

/-- A drafter with a snapshot of the first two tokens of a row. -/
def snapped (s : V2SuffixProposer) : AsyncSuffixDrafter where
  k := 1
  proposer := s
  probabilistic := false
  hybMin := 1
  snap := fun _ => [2]
  pending := some { slot := 0, ids := ["a"], idx := [0] }
  widths := ∅
  step := 1

/-- A step in which the row has three tokens. -/
def gained : StepInput where
  order := HashOrder.stored ReqId
  ids := ["a"]
  idx := [0]
  totals := [3]
  host := ⟨9, [[1, 2, 3, 4, 5, 6, 7, 8, 9]], V2SuffixProposer.nine_columns⟩
  ats := ⟨9, [[1, 2, 3, 4, 5, 6, 7, 8, 9]], V2SuffixProposer.nine_columns⟩
  native := none
  greedy := []
  fault := none
  nodup := List.nodup_singleton _
  idx_length := rfl

/-- The row follows a sequence of the cache, so the token after the gained one is drafted. -/
theorem real_drafts_covered_gained : ∃ s : V2SuffixProposer, s.Reachable ∧ ∃ out,
    ((snapped s).resolved gained ((snapped s).absorb gained) ⟨[[3, 4, 0]], [2]⟩)[0]? = some out ∧
      out = { drafts := [4], real := [true] } ∧ out.real.count true ≤ 1 := by
  obtain ⟨s, hs, _⟩ := run_total (fun s operation hs => V2SuffixProposer.op_total hs operation)
    (Cache.inv_new (Config.ofN 1 Nat.one_pos))
    (s := V2SuffixProposer.empty (Config.ofN 1 Nat.one_pos) 3 100 1 false false V2SuffixProposer.three_pos)
    [.addSequence [1, 2, 3, 4, 5, 6, 7, 8, 9]]
  have hreach : s.Reachable := ⟨_, _, _, _, _, _, _, _,
    show V2SuffixProposer.new (Config.ofN 1 Nat.one_pos) 3 100 1 false false = .ok _ from rfl, hs⟩
  have hview : ((Lib.run V2SuffixProposer.op
      (V2SuffixProposer.empty (Config.ofN 1 Nat.one_pos) 3 100 1 false false V2SuffixProposer.three_pos)
      [.addSequence [1, 2, 3, 4, 5, 6, 7, 8, 9]]).bind fun s =>
        (s.proposeSuffixOnly (lookupBatch gained ((snapped s).absorb gained))).map fun out =>
          (s.k, s.uniformK, out.1)) = some (3, false, .ok ⟨[[3, 4, 0]], [2]⟩) := by
    with_unfolding_all decide
  rw [hs, Option.bind_some, Option.map_eq_some_iff] at hview
  obtain ⟨⟨r, proposer⟩, hcall, heq⟩ := hview
  rw [Prod.mk.injEq, Prod.mk.injEq] at heq
  obtain ⟨hk, hu, rfl⟩ := heq
  have hrow : gained.ats.rows[0]? = some [1, 2, 3, 4, 5, 6, 7, 8, 9] := rfl
  have htotal : gained.totals.getD 0 0 = 3 := rfl
  have hid : gained.ids[0]? = some "a" := rfl
  obtain ⟨out, hout, _, _, hcount, _⟩ := real_drafts_covered (d := snapped s) hreach hk hu
    (selects_absorb _ _) hcall hid rfl hrow htotal (by decide)
  refine ⟨s, hreach, out, hout, ?_, hcount⟩
  exact (Option.some.inj hout).symm

end AsyncSuffixDrafter
end SuffixHybrid
