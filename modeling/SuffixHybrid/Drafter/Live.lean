import SuffixHybrid.Drafter.Resolve

/-!
# What the drafter ingests

The proposer takes every request that a lookup does not name for departed, but the drafter names only
those that the last snapshot knows. So a live request is kept out of the cache where the last step left a
snapshot and the request has not moved since (`Keeps`), and only there (`donates_iff`).
-/

namespace SuffixHybrid
open Lib

/-! ## The watched drafter -/

/-- A step gets to its lookup. -/
def StepInput.Looks (x : StepInput) : Prop := x.fault ≠ some .entry ∧ x.fault ≠ some .lookup

instance (x : StepInput) : Decidable x.Looks := inferInstanceAs (Decidable (_ ∧ _))

/-- A step with the rows of its requests. -/
structure WatchedInput where
  input : StepInput
  row : ReqId → List Token

/-- A drafter with a record of the rows, of the requests that have arrived, of those that were absent
from a batch since, of those donated since they were last in a batch, and of those ever donated. -/
structure Watch where
  d : AsyncSuffixDrafter
  row : ReqId → List Token
  arrived : List ReqId
  away : List ReqId
  donated : List ReqId
  everDonated : List ReqId

namespace AsyncSuffixDrafter

/-- What a step hands to the cache. -/
def handed (d : AsyncSuffixDrafter) (x : StepInput) : List (ReqId × List Token) :=
  if x.Looks then d.proposer.handed (lookupBatch x (d.absorb x)) else []

/-- What a step does to the proposer and to the snapshot. -/
inductive Advance [F64] (d : AsyncSuffixDrafter) (x : StepInput) : AsyncSuffixDrafter → Prop
  | idle {d' : AsyncSuffixDrafter} :
      ¬ x.Looks → d'.proposer = d.proposer → d'.pending = none → Advance d x d'
  | looked {d' : AsyncSuffixDrafter} {out : V2SuffixProposer.Outcome} :
      x.Looks → d.proposer.proposeSuffixOnly (lookupBatch x (d.absorb x)) = some out →
      d'.proposer = out.2 →
      (∀ pd, d'.pending = some pd → pd.ids = x.ids ∧ pd.idx = x.idx ∧ d'.snap pd.slot = x.rowTotals) →
      Advance d x d'

/-- A step ends in one of these ways. -/
lemma propose_advance [F64] {d : AsyncSuffixDrafter} (hinv : d.proposer.cache.Inv) (x : StepInput) :
    ∃ out d', d.propose x = some (out, d') ∧ Advance d x d' := by
  unfold propose run
  split
  case h_1 hfault => exact ⟨_, _, rfl, .idle (fun h => h.1 hfault) rfl rfl⟩
  case h_2 hfault => exact ⟨_, _, rfl, .idle (fun h => h.2 hfault) rfl rfl⟩
  case h_3 hentry hlookup =>
    have hlooks : x.Looks := ⟨hentry, hlookup⟩
    obtain ⟨⟨r, proposer⟩, hcall, _⟩ := V2SuffixProposer.call_exit hinv (lookupBatch x (d.absorb x))
    simp only [hcall, Option.map_some]
    cases r with
    | error e => exact ⟨_, _, rfl, .looked hlooks hcall rfl fun pd hpd => by cases hpd⟩
    | ok packed =>
      dsimp only
      by_cases hresolve : x.fault = some .resolve
      · rw [if_pos hresolve]
        exact ⟨_, _, rfl, .looked hlooks hcall rfl fun pd hpd => by cases hpd⟩
      · rw [if_neg hresolve]
        refine ⟨_, _, rfl, .looked hlooks hcall rfl fun pd hpd => ?_⟩
        cases hpd
        exact ⟨rfl, rfl, Function.update_self ..⟩

end AsyncSuffixDrafter

namespace Watch
open AsyncSuffixDrafter

/-- A step of the drafter, with the record. -/
def step [F64] (w : Watch) (x : WatchedInput) : Option Watch :=
  (w.d.propose x.input).map fun out =>
    { d := out.2
      row := fun id => if id ∈ x.input.ids then x.row id else w.row id
      arrived := w.arrived ++ x.input.ids
      away := w.away ++ w.arrived.filter (· ∉ x.input.ids)
      donated := (w.donated ++ (w.d.handed x.input).map Prod.fst).filter (· ∉ x.input.ids)
      everDonated := w.everDonated ++ (w.d.handed x.input).map Prod.fst }

/-- A drafter of which nothing is recorded yet. -/
def start (d : AsyncSuffixDrafter) : Watch where
  d
  row := fun _ => []
  arrived := []
  away := []
  donated := []
  everDonated := []

/-- The rows are only appended to. The lengths on the device are theirs; the host sees at least what the
rows were at the last step of their requests. -/
structure AppendOnly (w : Watch) (x : WatchedInput) : Prop where
  grows : ∀ id ∈ x.input.ids, w.row id <+: x.row id
  totals : x.input.rowTotals = x.input.ids.map fun id => ((x.row id).length : ℤ)
  shows : ∀ e ∈ x.input.ids.zip x.input.idx, ∀ buffer ∈ x.input.host.rows[e.2]?, w.row e.1 <+: buffer

/-- Where a step looks up, every request of the batch that was in every batch since it arrived, and whose
mirrored history is long enough for the cache, stands in the last snapshot, in the row it stands in now. -/
def Keeps (w : Watch) (x : WatchedInput) : Prop :=
  x.input.Looks → ∀ e ∈ x.input.ids.zip x.input.idx, e.1 ∉ w.away →
    ∀ t ∈ w.d.proposer.mirror.lookup e.1, 8 < t.length → ∃ pd ∈ w.d.pending, e ∈ pd.ids.zip pd.idx

/-- What a step donates: histories of requests that are not in its batch or were absent from one since
they arrived, each once and not again before it is back in a batch, and as prefixes of their rows. -/
structure Donates [F64] (w : Watch) (x : WatchedInput) : Prop where
  departed : ∀ e ∈ w.d.handed x.input, e.1 ∈ x.input.ids → e.1 ∈ w.away
  nodup : ((w.d.handed x.input).map Prod.fst).Nodup
  once : ∀ e ∈ w.d.handed x.input, e.1 ∉ w.donated
  isPrefix : ∀ e ∈ w.d.handed x.input, e.2 <+: w.row e.1
  cache : ∀ out d', w.d.propose x.input = some (out, d') →
    Lib.run Cache.add w.d.proposer.cache ((w.d.handed x.input).map Prod.snd) = some d'.proposer.cache

instance (w : Watch) (x : WatchedInput) : Decidable (w.AppendOnly x) :=
  decidable_of_iff ((∀ id ∈ x.input.ids, w.row id <+: x.row id) ∧
      (x.input.rowTotals = x.input.ids.map fun id => ((x.row id).length : ℤ)) ∧
      ∀ e ∈ x.input.ids.zip x.input.idx, ∀ buffer ∈ x.input.host.rows[e.2]?, w.row e.1 <+: buffer)
    ⟨fun h => ⟨h.1, h.2.1, h.2.2⟩, fun h => ⟨h.grows, h.totals, h.shows⟩⟩

instance (w : Watch) (x : WatchedInput) : Decidable (w.Keeps x) :=
  inferInstanceAs (Decidable (x.input.Looks → ∀ e ∈ x.input.ids.zip x.input.idx, e.1 ∉ w.away →
    ∀ t ∈ w.d.proposer.mirror.lookup e.1, 8 < t.length → ∃ pd ∈ w.d.pending, e ∈ pd.ids.zip pd.idx))

/-! ## The invariant -/

/-- The mirrors are prefixes of the rows and were not donated since their requests were last in a batch.
A snapshot has the lengths of the rows of its requests. -/
structure Inv (w : Watch) : Prop where
  keyed : w.d.proposer.Keyed
  cache : w.d.proposer.cache.Inv
  prefixes : ∀ id t, w.d.proposer.mirror.lookup id = some t → t <+: w.row id
  fresh : ∀ id ∈ w.d.proposer.mirror, id ∉ w.donated
  ids_nodup : ∀ pd, w.d.pending = some pd → pd.ids.Nodup
  idx_length : ∀ pd, w.d.pending = some pd → pd.idx.length = pd.ids.length
  snap : ∀ pd, w.d.pending = some pd →
    w.d.snap pd.slot = pd.ids.map fun id => ((w.row id).length : ℤ)

section steps
variable {w : Watch} {x : WatchedInput}

/-- The length of a row in the last snapshot. -/
lemma Inv.lagged_iff (h : w.Inv) {pd : Pending} (hpd : w.d.pending = some pd) {rid : ReqId} {row : ℕ}
    {total : ℤ} : w.d.lagged pd rid row = some total ↔
      (rid, row) ∈ pd.ids.zip pd.idx ∧ total = (w.row rid).length ∧ 0 < total := by
  have hnodup := h.ids_nodup pd hpd
  have hlen := h.idx_length pd hpd
  have hget {j : ℕ} (hj : pd.ids[j]? = some rid) :
      (w.d.snap pd.slot).getD j 0 = (w.row rid).length := by
    rw [h.snap pd hpd, List.getD_eq_getElem?_getD, List.getElem?_map, hj]
    rfl
  unfold lagged
  dsimp only
  constructor
  · intro hlag
    split at hlag
    case isFalse => cases hlag
    case isTrue hcond =>
      obtain ⟨hmem, hrow, hpos⟩ := hcond
      have hlt := List.idxOf_lt_length_of_mem hmem
      have hid : pd.ids[pd.ids.idxOf rid]? = some rid := List.getElem?_idxOf hmem
      rw [hget hid] at hlag hpos
      refine ⟨?_, (Option.some.inj hlag).symm, Option.some.inj hlag ▸ hpos⟩
      apply List.mem_of_getElem? (i := pd.ids.idxOf rid)
      rw [List.getElem?_zip_eq_some]
      rw [List.getD_eq_getElem?_getD, List.getElem?_eq_getElem (by omega), Option.getD_some] at hrow
      exact ⟨hid, by rw [List.getElem?_eq_getElem (by omega), hrow]⟩
  · rintro ⟨hmem, rfl, hpos⟩
    obtain ⟨j, hj⟩ := List.mem_iff_getElem?.mp hmem
    obtain ⟨hid, hrow⟩ := List.getElem?_zip_eq_some.mp hj
    obtain ⟨hjlt, hjid⟩ := List.getElem?_eq_some_iff.mp hid
    have hidx : pd.ids.idxOf rid = j := by
      have hat := hnodup.idxOf_getElem j hjlt
      rwa [hjid] at hat
    have hrowj : pd.idx.getD j 0 = row := by
      rw [List.getD_eq_getElem?_getD, hrow]
      rfl
    rw [hidx, hget hid, if_pos ⟨(List.of_mem_zip hmem).1, hrowj, hpos⟩]

/-- A row that a step looks up, with its length in the last snapshot. -/
lemma Inv.of_mem_absorb (h : w.Inv) {l : Lagged} (hl : l ∈ w.d.absorb x.input) :
    (l.rid, l.row) ∈ x.input.ids.zip x.input.idx ∧ l.total = (w.row l.rid).length ∧
      ∃ pd, w.d.pending = some pd ∧ (l.rid, l.row) ∈ pd.ids.zip pd.idx := by
  obtain ⟨pd, hpd, hid, hrow, hlag⟩ := mem_absorb.mp hl
  obtain ⟨hmem, htotal, _⟩ := (h.lagged_iff hpd).mp hlag
  refine ⟨List.mem_of_getElem? (i := l.pos) ?_, htotal, pd, hpd, hmem⟩
  rw [List.getElem?_zip_eq_some]
  exact ⟨hid, hrow⟩

/-- A row of the last snapshot that has not moved is looked up. -/
lemma Inv.exists_absorb (h : w.Inv) {e : ReqId × ℕ} (he : e ∈ x.input.ids.zip x.input.idx)
    (hrow : w.row e.1 ≠ []) {pd : Pending} (hpd : w.d.pending = some pd) (hmem : e ∈ pd.ids.zip pd.idx) :
    ∃ l ∈ w.d.absorb x.input, l.rid = e.1 := by
  obtain ⟨pos, hpos⟩ := List.mem_iff_getElem?.mp he
  obtain ⟨hid, hidx⟩ := List.getElem?_zip_eq_some.mp hpos
  have hlen : 0 < (w.row e.1).length := List.length_pos_iff.mpr hrow
  have hlag : w.d.lagged pd e.1 e.2 = some ((w.row e.1).length : ℤ) :=
    (h.lagged_iff hpd).mpr ⟨hmem, rfl, by omega⟩
  exact ⟨⟨pos, e.1, e.2, (w.row e.1).length⟩, mem_absorb.mpr ⟨pd, hpd, hid, hidx, hlag⟩, rfl⟩

lemma entries_absorb {indices : List ℕ} {tokens : Grid} {totals : List ℤ}
    {d : AsyncSuffixDrafter} {i : StepInput}
    (hread : (lookupBatch i (d.absorb i)).read = .ok (indices, tokens, totals)) :
    tokens = i.host ∧ V2SuffixProposer.entries (lookupBatch i (d.absorb i)).requestIds indices totals
      = (d.absorb i).map fun l => { rid := l.rid, index := l.row, total := l.total } := by
  rw [read_lookupBatch] at hread
  cases hread
  exact ⟨rfl, entries_lookup _⟩

/-- The host buffer has the rows that a step looks up, as they were at the snapshot. -/
lemma Inv.shows (h : w.Inv) (happ : w.AppendOnly x) :
    (lookupBatch x.input (w.d.absorb x.input)).Shows w.row := by
  intro indices tokens totals hread e he _ _ buffer hbuffer
  obtain ⟨rfl, hentries⟩ := entries_absorb hread
  rw [hentries] at he
  obtain ⟨l, hl, rfl⟩ := List.mem_map.mp he
  obtain ⟨hmem, htotal, _⟩ := h.of_mem_absorb hl
  have hpre := happ.shows _ hmem buffer hbuffer
  dsimp only
  rw [htotal, Int.toNat_natCast]
  exact (List.prefix_iff_eq_take.mp hpre).symm

variable [F64]

/-- What a lookup leaves mirrored: requests that it was made for, as prefixes of their rows. -/
lemma Inv.looked (h : w.Inv) (happ : w.AppendOnly x) {out : V2SuffixProposer.Outcome}
    (hcall : w.d.proposer.proposeSuffixOnly (lookupBatch x.input (w.d.absorb x.input)) = some out) :
    out.2.Keyed ∧ out.2.cache.Inv ∧ w.d.proposer.Ingests (lookupBatch x.input (w.d.absorb x.input)) out.2 ∧
      ∀ id t, out.2.mirror.lookup id = some t → id ∈ x.input.ids ∧ t <+: w.row id := by
  obtain ⟨out', hout', hexit⟩ :=
    V2SuffixProposer.call_exit h.cache (lookupBatch x.input (w.d.absorb x.input))
  obtain rfl : out' = out := Option.some.inj (hout'.symm.trans hcall)
  have htracks : w.d.proposer.Tracks (w.d.proposer.mirror.keys, w.row) := fun id t ht =>
    ⟨AList.mem_keys.mp (Map.mem_of_lookup ht), h.prefixes id t ht⟩
  have htracked := (hexit.tracks h.keyed h.cache htracks (read_lookupBatch _ _) (h.shows happ)
    fun id _ _ => List.prefix_rfl).1
  obtain ⟨s', hop, hinv⟩ := V2SuffixProposer.op_total h.cache
    (.propose (lookupBatch x.input (w.d.absorb x.input)))
  rw [V2SuffixProposer.op, hcall] at hop
  cases hop
  refine ⟨(hexit.keyed h.keyed h.cache).1, hinv, hexit.ingests h.keyed h.cache, fun id t ht => ?_⟩
  obtain ⟨hid, hpre⟩ := htracked id t ht
  obtain ⟨l, hl, rfl⟩ := List.mem_map.mp hid
  exact ⟨(List.of_mem_zip (h.of_mem_absorb hl).1).1, hpre⟩

/-- Every step on rows that are only appended to keeps the invariant. -/
lemma Inv.step (h : w.Inv) (happ : w.AppendOnly x) {w' : Watch} (hstep : w.step x = some w') : w'.Inv := by
  obtain ⟨out, d', hpropose, hadvance⟩ := propose_advance h.cache x.input
  rw [Watch.step, hpropose] at hstep
  cases hstep
  have hgrows {id : ReqId} {t : List Token} (ht : t <+: w.row id) :
      t <+: if id ∈ x.input.ids then x.row id else w.row id := by
    split
    case isTrue hid => exact ht.trans (happ.grows id hid)
    case isFalse => exact ht
  cases hadvance with
  | idle hlooks hproposer hpending =>
    exact {
      keyed := by rw [hproposer]; exact h.keyed
      cache := by rw [hproposer]; exact h.cache
      prefixes := fun id t ht => by
        rw [hproposer] at ht
        exact hgrows (h.prefixes id t ht)
      fresh := fun id hid hdonated => by
        rw [hproposer] at hid
        rw [List.mem_filter, handed, if_neg hlooks, List.map_nil, List.append_nil] at hdonated
        exact h.fresh id hid hdonated.1
      ids_nodup := fun pd hpd => by rw [hpending] at hpd; cases hpd
      idx_length := fun pd hpd => by rw [hpending] at hpd; cases hpd
      snap := fun pd hpd => by rw [hpending] at hpd; cases hpd }
  | looked hlooks hcall hproposer hpending =>
    obtain ⟨hkeyed, hcache, _, hmirror⟩ := h.looked happ hcall
    exact {
      keyed := by rw [hproposer]; exact hkeyed
      cache := by rw [hproposer]; exact hcache
      prefixes := fun id t ht => by
        rw [hproposer] at ht
        exact hgrows (hmirror id t ht).2
      -- what is mirrored now is in the batch, which clears the record
      fresh := fun id hid hdonated => by
        rw [hproposer] at hid
        obtain ⟨t, ht⟩ := Map.exists_lookup hid
        rw [List.mem_filter, decide_eq_true_eq] at hdonated
        exact hdonated.2 (hmirror id t ht).1
      ids_nodup := fun pd hpd => by
        rw [(hpending pd hpd).1]
        exact x.input.nodup
      idx_length := fun pd hpd => by
        rw [(hpending pd hpd).1, (hpending pd hpd).2.1]
        exact x.input.idx_length
      snap := fun pd hpd => by
        obtain ⟨hids, _, hsnap⟩ := hpending pd hpd
        dsimp only
        rw [hsnap, happ.totals, hids]
        apply List.map_congr_left
        intro id hid
        rw [if_pos hid] }

/-- What a step hands to the cache: the mirrors of more than 8 tokens of the requests that it does not
look up. -/
lemma Inv.mem_handed (h : w.Inv) (happ : w.AppendOnly x) {id : ReqId} {row : List Token} :
    (id, row) ∈ w.d.handed x.input ↔ x.input.Looks ∧ (∀ l ∈ w.d.absorb x.input, l.rid ≠ id) ∧
      w.d.proposer.mirror.lookup id = some row ∧ 8 < row.length := by
  unfold handed
  split
  case isFalse hlooks => simp [hlooks]
  case isTrue hlooks =>
    obtain ⟨out, hcall, _⟩ := V2SuffixProposer.call_exit h.cache
      (lookupBatch x.input (w.d.absorb x.input))
    have hingests := (h.looked happ hcall).2.2.1
    have hruns : (lookupBatch x.input (w.d.absorb x.input)).Runs :=
      ⟨_, _, _, read_lookupBatch _ _, by simp [lookupBatch]⟩
    have hids : id ∉ (lookupBatch x.input (w.d.absorb x.input)).requestIds ↔
        ∀ l ∈ w.d.absorb x.input, l.rid ≠ id := by
      simp [lookupBatch]
    rw [hingests.full, hids]
    constructor
    · intro h
      exact ⟨hlooks, h.2⟩
    · intro h
      exact ⟨hruns, h.2⟩

/-- The rest of what a step donates does not depend on the snapshot. -/
lemma Inv.donates (h : w.Inv) (happ : w.AppendOnly x)
    (hdeparted : ∀ e ∈ w.d.handed x.input, e.1 ∈ x.input.ids → e.1 ∈ w.away) : w.Donates x where
  departed := hdeparted
  nodup := by
    unfold handed
    split
    case isFalse => exact List.nodup_nil
    case isTrue =>
      obtain ⟨out, hcall, _⟩ := V2SuffixProposer.call_exit h.cache
        (lookupBatch x.input (w.d.absorb x.input))
      exact (h.looked happ hcall).2.2.1.once
  once := fun e he => by
    obtain ⟨_, _, hrow, _⟩ := (h.mem_handed happ).mp he
    exact h.fresh e.1 (Map.mem_of_lookup hrow)
  isPrefix := fun e he => by
    obtain ⟨_, _, hrow, _⟩ := (h.mem_handed happ).mp he
    exact h.prefixes e.1 e.2 hrow
  cache := fun out d' hout => by
    obtain ⟨out', d'', hpropose, hadvance⟩ := propose_advance h.cache x.input
    rw [hpropose] at hout
    cases hout
    cases hadvance with
    | idle hlooks hproposer _ =>
      rw [hproposer, handed, if_neg hlooks]
      rfl
    | looked hlooks hcall hproposer _ =>
      rw [hproposer, handed, if_pos hlooks]
      exact (h.looked happ hcall).2.2.1.cache

/-- A step donates no live request if and only if the snapshot has all of them. -/
lemma Inv.keeps_iff (h : w.Inv) (happ : w.AppendOnly x) : w.Donates x ↔ w.Keeps x := by
  constructor
  · intro hdonates hlooks e he haway t ht hlong
    have hid : e.1 ∈ x.input.ids := (List.of_mem_zip he).1
    by_contra hnone
    -- without a snapshot of its row the request is not looked up
    have hskipped : ∀ l ∈ w.d.absorb x.input, l.rid ≠ e.1 := by
      intro l hl heq
      obtain ⟨hmem, _, pd, hpd, hin⟩ := h.of_mem_absorb hl
      have hrow : l.row = e.2 := by
        have hkeys : ((x.input.ids.zip x.input.idx).map Prod.fst).Nodup :=
          Map.nodup_keys_zip x.input.nodup x.input.idx
        have hsame := List.inj_on_of_nodup_map hkeys hmem he heq
        exact congrArg Prod.snd hsame
      rw [heq, hrow] at hin
      exact hnone ⟨pd, hpd, hin⟩
    exact haway (hdonates.departed (e.1, t) ((h.mem_handed happ).mpr ⟨hlooks, hskipped, ht, hlong⟩) hid)
  · intro hkeeps
    apply h.donates happ
    intro e he hid
    obtain ⟨hlooks, hskipped, hrow, hlong⟩ := (h.mem_handed happ).mp he
    by_contra haway
    obtain ⟨pos, hpos⟩ := List.mem_iff_getElem?.mp hid
    have hlt : pos < x.input.idx.length := by
      rw [x.input.idx_length]
      exact (List.getElem?_eq_some_iff.mp hpos).1
    have hzip : (e.1, x.input.idx[pos]) ∈ x.input.ids.zip x.input.idx := by
      apply List.mem_of_getElem? (i := pos)
      rw [List.getElem?_zip_eq_some]
      exact ⟨hpos, List.getElem?_eq_getElem hlt⟩
    obtain ⟨pd, hpd, hin⟩ := hkeeps hlooks _ hzip haway e.2 hrow hlong
    have hnonempty : w.row e.1 ≠ [] := by
      intro hnil
      have hpre := h.prefixes e.1 e.2 hrow
      rw [hnil, List.prefix_nil] at hpre
      rw [hpre] at hlong
      exact absurd hlong (Nat.not_lt_zero 8)
    obtain ⟨l, hl, heq⟩ := h.exists_absorb hzip hnonempty hpd hin
    exact hskipped l hl heq

/-- A request that has been donated is not mirrored before it is in a batch again. -/
def Once (w : Watch) : Prop := w.Inv ∧ ∀ id ∈ w.d.proposer.mirror, id ∉ w.everDonated

/-- No request of the batch has been donated before. -/
def NoReturn (w : Watch) (x : WatchedInput) : Prop := ∀ id ∈ x.input.ids, id ∉ w.everDonated

lemma Once.step (h : w.Once) (happ : w.AppendOnly x) (hreturn : w.NoReturn x) {w' : Watch}
    (hstep : w.step x = some w') : w'.Once := by
  refine ⟨h.1.step happ hstep, ?_⟩
  obtain ⟨out, d', hpropose, hadvance⟩ := propose_advance h.1.cache x.input
  rw [Watch.step, hpropose] at hstep
  cases hstep
  intro id hid hdonated
  rcases List.mem_append.mp hdonated with hold | hnew
  · cases hadvance with
    | idle _ hproposer _ =>
      rw [hproposer] at hid
      exact h.2 id hid hold
    | looked _ hcall hproposer _ =>
      rw [hproposer] at hid
      obtain ⟨t, ht⟩ := Map.exists_lookup hid
      exact hreturn id ((h.1.looked happ hcall).2.2.2 id t ht).1 hold
  · obtain ⟨e, he, rfl⟩ := List.mem_map.mp hnew
    obtain ⟨hlooks, hskipped, _⟩ := (h.1.mem_handed happ).mp he
    cases hadvance with
    | idle hidle _ _ => exact hidle hlooks
    | looked _ hcall hproposer _ =>
      rw [hproposer] at hid
      -- what is mirrored now was looked up, and what was handed over was not
      obtain ⟨l, hl, heq⟩ := List.mem_map.mp ((h.1.looked happ hcall).2.2.1.departed
        ⟨_, _, _, read_lookupBatch _ _, by simp [lookupBatch]⟩ e.1 hid)
      exact hskipped l hl heq

end steps

/-! ## Runs -/

lemma inv_start {d : AsyncSuffixDrafter} (hkeyed : d.proposer.Keyed) (hcache : d.proposer.cache.Inv)
    (hmirror : d.proposer.mirror = ∅) (hpending : d.pending = none) : (start d).Inv where
  keyed := hkeyed
  cache := hcache
  prefixes := fun id t ht => by
    rw [start, hmirror, AList.lookup_empty] at ht
    cases ht
  fresh := fun _ _ hdonated => by cases hdonated
  ids_nodup := fun pd hpd => by
    rw [start, hpending] at hpd
    cases hpd
  idx_length := fun pd hpd => by
    rw [start, hpending] at hpd
    cases hpd
  snap := fun pd hpd => by
    rw [start, hpending] at hpd
    cases hpd

/-- A drafter on rows that are only appended to, through any batches with arrivals, departures and moves,
and through steps that raise at any point. It never donates the history of a request that is in the batch
and was in every batch since it arrived, if and only if at every step that looks up, all of these
requests with more than 8 mirrored tokens stand in the last snapshot, where they stand now. In any case
what a step donates are distinct histories, prefixes of their rows, none of them twice before the request
is back in a batch, and never twice if donated requests stay away. -/
theorem donates_iff [F64] {d : AsyncSuffixDrafter} (hd : d.proposer.Reachable)
    (hmirror : d.proposer.mirror = ∅) (hpending : d.pending = none) {xs : List WatchedInput}
    (happ : Lib.Along step AppendOnly (start d) xs) :
    (∃ w, Lib.run step (start d) xs = some w) ∧
      (Lib.Along step Donates (start d) xs ↔ Lib.Along step Keeps (start d) xs) ∧
      (Lib.Along step NoReturn (start d) xs →
        Lib.Along step (fun w x => ∀ e ∈ w.d.handed x.input, e.1 ∉ w.everDonated) (start d) xs) := by
  have hinv : (start d).Inv := inv_start hd.keyed hd.inv hmirror hpending
  refine ⟨?_, ?_, fun hreturn => ?_⟩
  · have htotal (w : Watch) (x : WatchedInput) (h : w.Inv) (hx : w.AppendOnly x) :
        ∃ w', w.step x = some w' ∧ w'.Inv := by
      obtain ⟨out, d', hpropose, _⟩ := propose_advance h.cache x.input
      have hstep : ∃ w', w.step x = some w' := ⟨_, by rw [step, hpropose, Option.map_some]⟩
      obtain ⟨w', hw'⟩ := hstep
      exact ⟨w', hw', h.step hx hw'⟩
    obtain ⟨w, hrun, _⟩ := Lib.Along.total htotal hinv happ
    exact ⟨w, hrun⟩
  · exact Lib.Along.iff (fun w x h hx => ⟨h.keeps_iff hx, fun w' hw' => h.step hx hw'⟩) hinv happ
  · have honce : (start d).Once := ⟨hinv, fun _ _ hdonated => by cases hdonated⟩
    apply Lib.Along.imp _ honce (happ.and hreturn)
    intro w x h hx
    refine ⟨fun e he => ?_, fun w' hw' => h.step hx.1 hx.2 hw'⟩
    obtain ⟨_, _, hrow, _⟩ := (h.1.mem_handed hx.1).mp he
    exact h.2 e.1 (Map.mem_of_lookup hrow)

/-- A drafter that has seen nothing. -/
def idle : AsyncSuffixDrafter where
  k := 1
  proposer := V2SuffixProposer.empty (Config.ofN 1 Nat.one_pos) 3 100 1 false false
    V2SuffixProposer.three_pos
  probabilistic := false
  hybMin := 1
  snap := fun _ => []
  pending := none
  widths := ∅
  step := 0

lemma idle_reachable : idle.proposer.Reachable :=
  ⟨_, _, _, _, _, _, _, [],
    show V2SuffixProposer.new (Config.ofN 1 Nat.one_pos) 3 100 1 false false = .ok _ from rfl, rfl⟩

/-- A step of one request with a row of nine tokens. -/
def nineTokens (id : ReqId) (fault : Option Fault) : WatchedInput where
  input := {
    order := HashOrder.stored ReqId
    ids := [id]
    idx := [0]
    totals := [9]
    host := ⟨9, [[1, 2, 3, 4, 5, 6, 7, 8, 9]], V2SuffixProposer.nine_columns⟩
    ats := ⟨9, [[1, 2, 3, 4, 5, 6, 7, 8, 9]], V2SuffixProposer.nine_columns⟩
    native := none
    greedy := []
    fault
    nodup := List.nodup_singleton _
    idx_length := List.length_singleton }
  row := fun _ => [1, 2, 3, 4, 5, 6, 7, 8, 9]

/-- A request that is replaced by another one is donated, when it has left. -/
theorem donates_iff_departing :
    Lib.Along step Donates (start idle) [nineTokens "a" none, nineTokens "a" none, nineTokens "b" none] ∧
      ∃ w, Lib.run step (start idle) [nineTokens "a" none, nineTokens "a" none, nineTokens "b" none]
        = some w ∧ w.everDonated = ["a"] := by
  have happ : Lib.Along step AppendOnly (start idle)
      [nineTokens "a" none, nineTokens "a" none, nineTokens "b" none] := by
    decide
  have hkeeps : Lib.Along step Keeps (start idle)
      [nineTokens "a" none, nineTokens "a" none, nineTokens "b" none] := by
    decide
  obtain ⟨⟨w, hrun⟩, hiff, _⟩ := donates_iff idle_reachable rfl rfl happ
  have hever : (Lib.run step (start idle) [nineTokens "a" none, nineTokens "a" none, nineTokens "b" none]).map
      (·.everDonated) = some ["a"] := by
    decide
  rw [hrun, Option.map_some] at hever
  exact ⟨hiff.mpr hkeeps, w, hrun, Option.some.inj hever⟩

/-- A step that raises behind its lookup drops the snapshot, so the next one donates a request that never
left. -/
theorem degraded_step_donates : ¬ ∀ (d : AsyncSuffixDrafter) (xs : List WatchedInput),
    d.proposer.Reachable → d.proposer.mirror = ∅ → d.pending = none →
    Lib.Along step AppendOnly (start d) xs → Lib.Along step Donates (start d) xs := by
  intro hall
  have happ : Lib.Along step AppendOnly (start idle)
      [nineTokens "a" none, nineTokens "a" (some .resolve), nineTokens "a" none] := by
    decide
  have hlive : ¬ Lib.Along step (fun w x => ∀ e ∈ w.d.handed x.input, e.1 ∈ x.input.ids → e.1 ∈ w.away)
      (start idle) [nineTokens "a" none, nineTokens "a" (some .resolve), nineTokens "a" none] := by
    decide
  have hdeparted (w : Watch) (x : WatchedInput) (h : w.Donates x) :
      ∀ e ∈ w.d.handed x.input, e.1 ∈ x.input.ids → e.1 ∈ w.away := h.departed
  exact hlive (Lib.Along.mono hdeparted (hall idle _ idle_reachable rfl rfl happ))

end Watch
end SuffixHybrid
