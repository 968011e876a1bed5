import SuffixHybrid.Proposer.Atomic
import SuffixHybrid.Proposer.Vocab

/-!
# The tables of the proposer

A call goes through the row loop one row at a time (`RowSteps`) and ends in one of three ways (`Exit`).
However it ends, the requests with a published width, and with the gate on those with a gate, are the
mirrored ones (`Keyed`). The departure loop hands to the cache what `handed` lists. A retraction blinds
the gates for the next call (`Blind`), and rows that are only appended to are mirrored as they are
(`Tracks`).
-/

namespace SuffixHybrid
open Lib

namespace V2SuffixProposer

/-! ## The row loop -/

/-- The row loop, row by row, with how it ends. -/
inductive RowSteps [F64] (tokens : Grid) : List Entry → V2SuffixProposer →
    Except Raised (List SuffixRowOut) → V2SuffixProposer → Prop
  | nil {s : V2SuffixProposer} : RowSteps tokens [] s (.ok []) s
  | bounds {s : V2SuffixProposer} {e : Entry} {batch : List Entry} :
      s.outOfBounds tokens e = true →
      RowSteps tokens (e :: batch) s (.error (.raised (.valueError "suffix-only row bounds"))) s
  | index {s : V2SuffixProposer} {e : Entry} {batch : List Entry} :
      tokens.rows[e.index]? = none → RowSteps tokens (e :: batch) s (.error .panicked) s
  | row {s s' : V2SuffixProposer} {e : Entry} {batch : List Entry} {buffer suffix : List Token}
      {score : ℚ} {matched : ℕ} {r : Except Raised (List SuffixRowOut)} :
      s.outOfBounds tokens e ≠ true → tokens.rows[e.index]? = some buffer →
      s.cache.speculate (s.mirrored e.rid e.total.toNat buffer) s.k = some (suffix, score, matched) →
      suffix.length ≤ s.k →
      RowSteps tokens batch (s.afterRow e.rid e.total.toNat buffer suffix) r s' →
      RowSteps tokens (e :: batch) s (r.map (s.rowOut e.rid e.total.toNat buffer suffix :: ·)) s'

/-- The row loop ends. -/
lemma rows_steps [F64] {s : V2SuffixProposer} (hinv : s.cache.Inv) (tokens : Grid) (batch : List Entry) :
    ∃ r s', rows tokens batch s = some (r, s') ∧ RowSteps tokens batch s r s' := by
  induction batch generalizing s with
  | nil => exact ⟨_, s, rfl, .nil⟩
  | cons e batch ih =>
    rw [rows]
    by_cases hbad : s.outOfBounds tokens e = true
    · rw [if_pos hbad]
      exact ⟨_, s, rfl, .bounds hbad⟩
    · rw [if_neg hbad]
      cases hbuffer : tokens.rows[e.index]? with
      | none => exact ⟨_, s, rfl, .index hbuffer⟩
      | some buffer =>
        obtain ⟨suffix, score, matched, hspec, hle, hrow⟩ := row_spec hinv e.rid e.total.toNat buffer
        obtain ⟨r, s', hrest, hsteps⟩ := ih (s := s.afterRow e.rid e.total.toNat buffer suffix) hinv
        simp only [hrow, hrest, Option.bind_eq_bind, Option.bind_some]
        exact ⟨_, s', rfl, .row hbad hbuffer hspec hle hsteps⟩

/-- What a row loop leaves alone. -/
lemma RowSteps.settings [F64] {tokens : Grid} {batch : List Entry} {s s' : V2SuffixProposer}
    {r : Except Raised (List SuffixRowOut)} (h : RowSteps tokens batch s r s') :
    s'.cache = s.cache ∧ s'.k = s.k ∧ s'.widthGate = s.widthGate ∧ s'.ingested = s.ingested := by
  induction h with
  | nil | bounds _ | index _ => exact ⟨rfl, rfl, rfl, rfl⟩
  | row _ _ _ _ _ ih => exact ih

/-! ## The ways a call ends -/

/-- How a call ends: its arguments are rejected, or a row fails, or it returns the packed drafts. -/
inductive Exit [F64] (s : V2SuffixProposer) (b : Batch) : Outcome → Prop
  | rejected {e : PyErr} :
      (∀ indices tokens totals, b.read = .ok (indices, tokens, totals) →
        indices.length < b.requestIds.length) →
      Exit s b (.error (.raised e), s)
  | failed {indices : List ℕ} {tokens : Grid} {totals : List ℤ} {s1 s2 : V2SuffixProposer} {e : Raised} :
      b.read = .ok (indices, tokens, totals) → b.requestIds.length ≤ indices.length →
      s.depart b.o b.requestIds = some s1 →
      RowSteps tokens (entries b.requestIds indices totals) s1 (.error e) s2 →
      Exit s b (.error e, s2)
  | finished {indices : List ℕ} {tokens : Grid} {totals : List ℤ} {s1 s2 : V2SuffixProposer}
      {outs : List SuffixRowOut} :
      b.read = .ok (indices, tokens, totals) → b.requestIds.length ≤ indices.length →
      s.depart b.o b.requestIds = some s1 →
      RowSteps tokens (entries b.requestIds indices totals) s1 (.ok outs) s2 →
      Exit s b (.ok { drafts := outs.map (pack s2.k), widths := outs.map (·.width) }, { s2 with
        steps := s2.steps + 1
        padded := s2.padded + outs.countP fun out => s2.uniformK && out.realW < out.width })

/-- A call ends in one of these ways. -/
lemma call_exit [F64] {s : V2SuffixProposer} (hinv : s.cache.Inv) (b : Batch) :
    ∃ out, s.proposeSuffixOnly b = some out ∧ Exit s b out := by
  unfold proposeSuffixOnly
  cases hread : b.read with
  | error e => exact ⟨_, rfl, .rejected fun indices tokens totals h => by rw [hread] at h; cases h⟩
  | ok args =>
    obtain ⟨indices, tokens, totals⟩ := args
    simp only [run]
    split
    case isTrue hdim =>
      refine ⟨_, rfl, .rejected fun indices' tokens' totals' h => ?_⟩
      rw [hread] at h
      cases h
      exact hdim
    case isFalse hdim =>
      obtain ⟨cache, mirror, widths, gate, ingested, hdepart, hc, _⟩ :=
        depart_spec hinv b.o b.requestIds
      obtain ⟨r, s2, hrows, hsteps⟩ := rows_steps
        (s := { s with cache, mirror, widths, gate, ingested }) hc tokens
        (entries b.requestIds indices totals)
      simp only [hdepart, hrows, Option.bind_eq_bind, Option.bind_some]
      cases r with
      | error e => exact ⟨_, rfl, .failed hread (not_lt.mp hdim) hdepart hsteps⟩
      | ok outs => exact ⟨_, rfl, .finished hread (not_lt.mp hdim) hdepart hsteps⟩

/-! ## The keys of the tables -/

/-- The requests with a published width are the mirrored ones, and so are those with a gate where there
are gates. -/
structure Keyed (s : V2SuffixProposer) : Prop where
  widths : ∀ id, id ∈ s.widths ↔ id ∈ s.mirror
  gate : ∀ id, id ∈ s.gate ↔ s.widthGate = true ∧ id ∈ s.mirror

/-- The tables are those of a batch. -/
structure Covers (s : V2SuffixProposer) (ids : List ReqId) : Prop where
  mirror : ∀ id, id ∈ s.mirror ↔ id ∈ ids
  widths : ∀ id, id ∈ s.widths ↔ id ∈ ids
  gate : ∀ id, id ∈ s.gate ↔ s.widthGate = true ∧ id ∈ ids

lemma Keyed.covers {s : V2SuffixProposer} (h : s.Keyed) {ids : List ReqId}
    (hmirror : ∀ id, id ∈ s.mirror ↔ id ∈ ids) : s.Covers ids where
  mirror := hmirror
  widths := fun id => (h.widths id).trans (hmirror id)
  gate := fun id => by rw [h.gate, hmirror]

lemma keyed_empty (cfg : Config) (k maxModelLen minLen : ℕ) (uniformK widthGate : Bool) (hk : 0 < k) :
    (empty cfg k maxModelLen minLen uniformK widthGate hk).Keyed where
  widths := fun id => by simp [empty]
  gate := fun id => by simp [empty]

/-- The departure loop takes a request out of all tables. -/
lemma Keyed.depart {s s' : V2SuffixProposer} (h : s.Keyed) (hinv : s.cache.Inv) {o : HashOrder ReqId}
    {ids : List ReqId} (hdepart : s.depart o ids = some s') :
    s'.Keyed ∧ ∀ id, id ∈ s'.mirror ↔ id ∈ s.mirror ∧ id ∈ ids := by
  obtain ⟨cache, mirror, widths, gate, ingested, hrun, _, _, _, _, hm, hw, hg⟩ :=
    depart_spec hinv o ids
  rw [hdepart] at hrun
  cases hrun
  have hmirror (id : ReqId) : id ∈ mirror ↔ id ∈ s.mirror ∧ id ∈ ids := by
    rw [← AList.lookup_isSome, hm, ← AList.lookup_isSome]
    split <;> simp_all
  have hgone (id : ReqId) : id ∈ s.mirror ∧ id ∉ s.gone o ids ↔ id ∈ s.mirror ∧ id ∈ ids := by
    rw [mem_gone]
    tauto
  refine ⟨⟨fun id => ?_, fun id => ?_⟩, hmirror⟩
  · rw [hmirror, ← hgone, ← h.widths, ← AList.lookup_isSome, hw, ← AList.lookup_isSome]
    split <;> simp_all
  · rw [hmirror, ← hgone, ← and_assoc, ← h.gate, ← AList.lookup_isSome, hg, ← AList.lookup_isSome]
    split <;> simp_all

section rows
variable [F64] {s s' : V2SuffixProposer} {tokens : Grid} {batch : List Entry}
  {r : Except Raised (List SuffixRowOut)}

/-- A row enters its request into all tables. -/
lemma Keyed.afterRow (h : s.Keyed) (rid : ReqId) (total : ℕ) (buffer suffix : List Token) :
    (s.afterRow rid total buffer suffix).Keyed where
  widths := fun id => by simp only [V2SuffixProposer.afterRow, Map.mem_put, h.widths]
  gate := fun id => by
    simp only [V2SuffixProposer.afterRow, Map.mem_put]
    split
    case isTrue hon => simp [Map.mem_put, h.gate, hon]
    case isFalse hoff => simp [h.gate, hoff]

/-- The row loop keeps the tables together, and a loop that ends enters the whole batch. -/
lemma RowSteps.keyed (hsteps : RowSteps tokens batch s r s') (h : s.Keyed) :
    s'.Keyed ∧ (∀ id, id ∈ s'.mirror → id ∈ s.mirror ∨ id ∈ batch.map (·.rid)) ∧
      (∀ id ∈ s.mirror, id ∈ s'.mirror) ∧
      ∀ outs, r = .ok outs → ∀ id ∈ batch.map (·.rid), id ∈ s'.mirror := by
  induction hsteps with
  | nil => exact ⟨h, fun _ hid => Or.inl hid, fun _ hid => hid, fun _ _ _ hid => by cases hid⟩
  | bounds _ | index _ =>
    exact ⟨h, fun _ hid => Or.inl hid, fun _ hid => hid, fun _ hr => by cases hr⟩
  | @row s s' e batch buffer suffix score matched r _ _ _ _ _ ih =>
    obtain ⟨hkeyed, hsub, hsup, hall⟩ := ih (h.afterRow e.rid e.total.toNat buffer suffix)
    have hmem (id : ReqId) : id ∈ (s.afterRow e.rid e.total.toNat buffer suffix).mirror ↔
        id = e.rid ∨ id ∈ s.mirror := Map.mem_put _ _ _ _
    refine ⟨hkeyed, fun id hid => ?_, fun id hid => hsup id ((hmem id).mpr (Or.inr hid)),
      fun outs hr id hid => ?_⟩
    · rw [List.map_cons, List.mem_cons]
      rcases hsub id hid with hold | hnew
      · rcases (hmem id).mp hold with heq | hold
        · exact Or.inr (Or.inl heq)
        · exact Or.inl hold
      · exact Or.inr (Or.inr hnew)
    · cases r with
      | error e' => cases hr
      | ok outs' =>
        rw [List.map_cons, List.mem_cons] at hid
        rcases hid with heq | hrest
        · exact hsup id ((hmem id).mpr (Or.inl heq))
        · exact hall outs' rfl id hrest

end rows

/-! ## Ingestion -/

/-- What a round of the departure loop hands to `Cache::add`, with the request it belongs to. -/
def handedRow (s : V2SuffixProposer) (rid : ReqId) : List (ReqId × List Token) :=
  match s.mirror.lookup rid with
  | none => []
  | some row => if row.length > 8 then [(rid, row)] else []

/-- What a call hands to `Cache::add`: nothing if its arguments are rejected. -/
def handed (s : V2SuffixProposer) (b : Batch) : List (ReqId × List Token) :=
  match b.read with
  | .error _ => []
  | .ok (indices, _, _) =>
    if indices.length < b.requestIds.length then []
    else Lib.collect departRow handedRow s (s.gone b.o b.requestIds)

/-- A call gets past the checks of its arguments. -/
def Batch.Runs (b : Batch) : Prop :=
  ∃ indices tokens totals, b.read = .ok (indices, tokens, totals) ∧
    b.requestIds.length ≤ indices.length

/-- What a call hands over: the full mirror of each request that departs, once, if it has more than 8
tokens. The cache gets that and nothing else, and the request is no longer mirrored. -/
structure Ingests (s : V2SuffixProposer) (b : Batch) (s' : V2SuffixProposer) : Prop where
  once : ((s.handed b).map Prod.fst).Nodup
  full : ∀ id row, (id, row) ∈ s.handed b ↔
    b.Runs ∧ id ∉ b.requestIds ∧ s.mirror.lookup id = some row ∧ 8 < row.length
  cache : Lib.run Cache.add s.cache ((s.handed b).map Prod.snd) = some s'.cache
  ingested : s'.ingested = s.ingested + (s.handed b).length
  departed : b.Runs → ∀ id ∈ s'.mirror, id ∈ b.requestIds

/-- The departure loop hands over the mirrors of the distinct requests that it is given. -/
lemma collect_handedRow {s : V2SuffixProposer} (hinv : s.cache.Inv) {rids : List ReqId}
    (hrids : rids.Nodup) (htracked : ∀ rid ∈ rids, rid ∈ s.mirror) :
    Lib.collect departRow handedRow s rids
      = (rids.filterMap fun rid => (s.mirror.lookup rid).map (rid, ·)).filter
          fun e => e.2.length > 8 := by
  induction rids generalizing s with
  | nil => rfl
  | cons rid rids ih =>
    obtain ⟨hnew, hrest⟩ := List.nodup_cons.mp hrids
    obtain ⟨row, hrow⟩ := Map.exists_lookup (htracked rid (by simp))
    obtain ⟨c1, i1, hstep, hc1, _⟩ := departRow_spec hinv hrow
    have hkept (id : ReqId) (hid : id ∈ rids) : (s.mirror.erase rid).lookup id = s.mirror.lookup id :=
      AList.lookup_erase_ne fun h => hnew (h ▸ hid)
    have hsame : rids.filterMap (fun id => ((s.mirror.erase rid).lookup id).map (id, ·))
        = rids.filterMap fun id => (s.mirror.lookup id).map (id, ·) := by
      apply List.filterMap_congr
      intro id hid
      rw [hkept id hid]
    rw [collect_cons handedRow hstep, ih hc1 hrest fun id hid => by
      rw [← AList.lookup_isSome, hkept id hid, AList.lookup_isSome]
      exact htracked id (by simp [hid])]
    rw [hsame, handedRow, hrow, List.filterMap_cons, hrow, Option.map_some]
    dsimp only
    rw [List.filter_cons]
    split <;> simp_all

/-- The mirrors that a departure loop hands over. -/
lemma mem_handed {s : V2SuffixProposer} {rids : List ReqId} {id : ReqId} {row : List Token} :
    (id, row) ∈ ((rids.filterMap fun rid => (s.mirror.lookup rid).map (rid, ·)).filter
        fun e => e.2.length > 8) ↔ id ∈ rids ∧ s.mirror.lookup id = some row ∧ 8 < row.length := by
  rw [List.mem_filter, List.mem_filterMap, decide_eq_true_eq]
  constructor
  · rintro ⟨⟨rid, hrid, hrow⟩, hlong⟩
    obtain ⟨row', hrow', heq⟩ := Option.map_eq_some_iff.mp hrow
    cases heq
    exact ⟨hrid, hrow', hlong⟩
  · rintro ⟨hid, hrow, hlong⟩
    exact ⟨⟨id, hid, by rw [hrow, Option.map_some]⟩, hlong⟩

/-- The cache of a call, and the requests that it leaves mirrored. -/
lemma Exit.ingests [F64] {s : V2SuffixProposer} {b : Batch} {out : Outcome} (hexit : Exit s b out)
    (h : s.Keyed) (hinv : s.cache.Inv) : s.Ingests b out.2 := by
  have hran {indices : List ℕ} {tokens : Grid} {totals : List ℤ} {s1 s2 : V2SuffixProposer}
      {r : Except Raised (List SuffixRowOut)} (hread : b.read = .ok (indices, tokens, totals))
      (hdim : b.requestIds.length ≤ indices.length) (hdepart : s.depart b.o b.requestIds = some s1)
      (hsteps : RowSteps tokens (entries b.requestIds indices totals) s1 r s2) : s.Ingests b s2 := by
    have hruns : b.Runs := ⟨indices, tokens, totals, hread, hdim⟩
    have hhanded : s.handed b = (((s.gone b.o b.requestIds).filterMap fun rid =>
        (s.mirror.lookup rid).map (rid, ·)).filter fun e => e.2.length > 8) := by
      rw [handed, hread]
      dsimp only
      rw [if_neg (not_lt.mpr hdim)]
      exact collect_handedRow hinv (nodup_gone _ _ _) fun id hid => (mem_gone.mp hid).1
    have hdonated : (s.handed b).map Prod.snd = s.donated (s.gone b.o b.requestIds) := by
      have hsnd : ((s.gone b.o b.requestIds).filterMap fun rid =>
          (s.mirror.lookup rid).map (rid, ·)).map Prod.snd
            = (s.gone b.o b.requestIds).filterMap fun rid => s.mirror.lookup rid := by
        rw [List.map_filterMap]
        congr 1
        funext rid
        rw [Option.map_map]
        exact Option.map_id'
      rw [hhanded, donated, ← hsnd, List.filter_map]
      rfl
    have hfull (id : ReqId) (row : List Token) : (id, row) ∈ s.handed b ↔
        b.Runs ∧ id ∉ b.requestIds ∧ s.mirror.lookup id = some row ∧ 8 < row.length := by
      rw [hhanded, mem_handed, mem_gone]
      constructor
      · rintro ⟨⟨_, habsent⟩, hrow, hlong⟩
        exact ⟨hruns, habsent, hrow, hlong⟩
      · rintro ⟨_, habsent, hrow, hlong⟩
        exact ⟨⟨Map.mem_of_lookup hrow, habsent⟩, hrow, hlong⟩
    obtain ⟨hkeyed, hmirror⟩ := h.depart hinv hdepart
    obtain ⟨cache, mirror, widths, gate, ingested, hrun, _, _, hfed, hing, _⟩ :=
      depart_spec hinv b.o b.requestIds
    rw [hdepart] at hrun
    cases hrun
    obtain ⟨hcache, _, _, hingested⟩ := hsteps.settings
    exact {
      once := by
        apply List.Nodup.map_on
        · intro e he e' he' heq
          have hrow := ((hfull e.1 e.2).mp he).2.2.1
          have hrow' := ((hfull e'.1 e'.2).mp he').2.2.1
          rw [heq, hrow'] at hrow
          exact Prod.ext heq (Option.some.inj hrow).symm
        · rw [hhanded]
          refine ((nodup_gone b.o s b.requestIds).filterMap ?_).filter _
          intro id id' e he he'
          obtain ⟨_, _, rfl⟩ := Option.map_eq_some_iff.mp he
          obtain ⟨_, _, heq⟩ := Option.map_eq_some_iff.mp he'
          exact (congrArg Prod.fst heq).symm
      full := hfull
      cache := by rw [hdonated, hcache, hfed]
      ingested := by
        rw [hingested, hing, ← hdonated, List.length_map]
      departed := fun _ id hid => by
        rcases (hsteps.keyed hkeyed).2.1 id hid with hold | hnew
        · exact ((hmirror id).mp hold).2
        · exact mem_rids_entries hnew }
  cases hexit with
  | rejected hrejected =>
    have hruns : ¬ b.Runs := by
      rintro ⟨indices, tokens, totals, hread, hdim⟩
      exact absurd (hrejected indices tokens totals hread) (not_lt.mpr hdim)
    have hhanded : s.handed b = [] := by
      unfold handed
      split
      case h_1 => rfl
      case h_2 hread => exact if_pos (hrejected _ _ _ hread)
    exact {
      once := by simp [hhanded]
      full := fun id row => by
        rw [hhanded]
        exact iff_of_false (List.not_mem_nil) fun h => hruns h.1
      cache := by simp [hhanded]
      ingested := by simp [hhanded]
      departed := fun hr => absurd hr hruns }
  | failed hread hdim hdepart hsteps => exact hran hread hdim hdepart hsteps
  | finished hread hdim hdepart hsteps =>
    have hing := hran hread hdim hdepart hsteps
    exact ⟨hing.once, hing.full, hing.cache, hing.ingested, hing.departed⟩

/-! ## Retractions -/

/-- The gates that are left keep their estimates. -/
def KeepsEwma (s s' : V2SuffixProposer) : Prop :=
  ∀ id g g', s.gate.lookup id = some g → s'.gate.lookup id = some g' → g'.ewma = g.ewma

/-- A gate that has published nothing is not trained. -/
lemma train_of_lastWidth [F64] {g : GateRow} (h : g.lastWidth = 0) (cont : Bool) (trackedLen : Option ℕ)
    (total : ℕ) : train cont trackedLen total g = g := by
  unfold train
  rw [if_neg (by simp [h])]

/-- Rows of distinct requests whose gates have published nothing keep all estimates. -/
lemma RowSteps.keepsEwma [F64] {tokens : Grid} {batch : List Entry} {s s' : V2SuffixProposer}
    {r : Except Raised (List SuffixRowOut)} (h : RowSteps tokens batch s r s')
    (hnodup : (batch.map (·.rid)).Nodup)
    (hblind : ∀ id ∈ batch.map (·.rid), ∀ g, s.gate.lookup id = some g → g.lastWidth = 0) :
    ∀ id g, s.gate.lookup id = some g → ∃ g', s'.gate.lookup id = some g' ∧ g'.ewma = g.ewma := by
  induction h with
  | nil | bounds _ | index _ => exact fun id g hg => ⟨g, hg, rfl⟩
  | @row s s' e batch buffer suffix score matched r _ _ _ _ _ ih =>
    rw [List.map_cons] at hnodup hblind
    obtain ⟨hnew, hrest⟩ := List.nodup_cons.mp hnodup
    have hgate (id : ReqId) : (s.afterRow e.rid e.total.toNat buffer suffix).gate.lookup id
        = if s.widthGate = true ∧ id = e.rid then
            some (s.recorded (s.trained e.rid e.total.toNat buffer)
              (s.suffixOf e.rid e.total.toNat buffer suffix).length)
          else s.gate.lookup id := by
      cases hon : s.widthGate <;> simp [V2SuffixProposer.afterRow, hon, Map.lookup_put]
    have hother (id : ReqId) (hid : id ≠ e.rid) :
        (s.afterRow e.rid e.total.toNat buffer suffix).gate.lookup id = s.gate.lookup id := by
      rw [hgate, if_neg fun h => hid h.2]
    intro id g hg
    have hone : ∃ g1, (s.afterRow e.rid e.total.toNat buffer suffix).gate.lookup id = some g1 ∧
        g1.ewma = g.ewma := by
      rw [hgate]
      split
      case isTrue heq =>
        -- the gate of the row is recorded with the estimate that it had
        obtain ⟨_, rfl⟩ := heq
        refine ⟨_, rfl, ?_⟩
        rw [trained, hg, Option.map_some,
          train_of_lastWidth (hblind e.rid List.mem_cons_self g hg)]
        rfl
      case isFalse => exact ⟨g, hg, rfl⟩
    obtain ⟨g1, hg1, hewma⟩ := hone
    obtain ⟨g2, hg2, hewma'⟩ := ih hrest (fun id hid g hg => by
      rw [hother id fun heq => hnew (heq ▸ hid)] at hg
      exact hblind id (List.mem_cons_of_mem _ hid) g hg) id g1 hg1
    exact ⟨g2, hg2, hewma'.trans hewma⟩

lemma rids_entries {ids : List ReqId} {indices : List ℕ} {totals : List ℤ}
    (h : (entries ids indices totals).length = ids.length) :
    (entries ids indices totals).map (·.rid) = ids := by
  rw [entries, List.length_map, List.length_zip] at h
  rw [entries, List.map_map]
  exact List.map_fst_zip (by omega)

/-- The call after a retraction trains no gate. -/
lemma Exit.keepsEwma [F64] {s : V2SuffixProposer} {b : Batch} {out : Outcome} (hexit : Exit s b out)
    (h : s.Keyed) (hinv : s.cache.Inv) (hids : b.requestIds.Nodup)
    (hblind : ∀ id g, s.gate.lookup id = some g → g.lastWidth = 0) : s.KeepsEwma out.2 := by
  have hran {indices : List ℕ} {tokens : Grid} {totals : List ℤ} {s1 s2 : V2SuffixProposer}
      {r : Except Raised (List SuffixRowOut)} (hread : b.read = .ok (indices, tokens, totals))
      (hdepart : s.depart b.o b.requestIds = some s1)
      (hsteps : RowSteps tokens (entries b.requestIds indices totals) s1 r s2) : s.KeepsEwma s2 := by
    obtain ⟨hkeyed, hmirror⟩ := h.depart hinv hdepart
    obtain ⟨cache, mirror, widths, gate, ingested, hrun, _, _, _, _, _, _, hg⟩ :=
      depart_spec hinv b.o b.requestIds
    rw [hdepart] at hrun
    cases hrun
    have hrids := rids_entries (entries_length hread)
    intro id g g' hlookup hlookup'
    by_cases hgone : id ∈ s.gone b.o b.requestIds
    · -- a departed request has no gate any more
      exfalso
      obtain ⟨hkeyed', hsub, _⟩ := hsteps.keyed hkeyed
      rcases hsub id ((hkeyed'.gate id).mp (Map.mem_of_lookup hlookup')).2 with hold | hnew
      · exact (mem_gone.mp hgone).2 ((hmirror id).mp hold).2
      · exact (mem_gone.mp hgone).2 (mem_rids_entries hnew)
    · have hsame : gate.lookup id = some g := by rw [hg, if_neg hgone, hlookup]
      obtain ⟨g1, hg1, hewma⟩ := hsteps.keepsEwma (by rwa [hrids]) (fun id' _ g1 hg1 => by
        rw [hg] at hg1
        split at hg1
        · cases hg1
        · exact hblind id' g1 hg1) id g hsame
      rw [hlookup'] at hg1
      cases hg1
      exact hewma
  cases hexit with
  | rejected _ =>
    intro id g g' hg hg'
    rw [hg] at hg'
    cases hg'
    rfl
  | failed hread _ hdepart hsteps => exact hran hread hdepart hsteps
  | finished hread _ hdepart hsteps =>
    have hkeeps := hran hread hdepart hsteps
    exact fun id g g' hg hg' => hkeeps id g g' hg hg'

/-! ## Rows that are appended to -/

/-- The batch hands over the first tokens of the rows of its requests, wherever a total is in bounds. -/
def Batch.Shows (b : Batch) (row : ReqId → List Token) : Prop :=
  ∀ indices tokens totals, b.read = .ok (indices, tokens, totals) →
    ∀ e ∈ entries b.requestIds indices totals, 0 ≤ e.total → e.total.toNat ≤ tokens.ncols →
      ∀ buffer, tokens.rows[e.index]? = some buffer → buffer.take e.total.toNat = row e.rid

/-- An operation together with the rows of the requests at that time. -/
abbrev RowOp := Op × (ReqId → List Token)

/-- While a request stays in the batch its row is only appended to. Calls whose arguments are rejected
have no batch. -/
def AppendOnly : List ReqId × (ReqId → List Token) → List RowOp → Prop
  | _, [] => True
  | last, (.propose b, row) :: ops =>
    match b.read with
    | .error _ => AppendOnly last ops
    | .ok _ => b.Shows row ∧ (∀ id ∈ b.requestIds, id ∈ last.1 → last.2 id <+: row id) ∧
        AppendOnly (b.requestIds, row) ops
  | last, _ :: ops => AppendOnly last ops

/-- The mirrored requests were in the batch, and their mirrors are prefixes of their rows. -/
def Tracks (s : V2SuffixProposer) (last : List ReqId × (ReqId → List Token)) : Prop :=
  ∀ id t, s.mirror.lookup id = some t → id ∈ last.1 ∧ t <+: last.2 id

/-- A mirror that is a prefix of the row becomes the row. -/
lemma mirrored_of_prefix {s : V2SuffixProposer} {rid : ReqId} {total : ℕ} {buffer : List Token}
    (h : ∀ t, s.mirror.lookup rid = some t → t <+: buffer.take total) :
    s.mirrored rid total buffer = buffer.take total := by
  unfold mirrored
  cases hrow : s.mirror.lookup rid with
  | none => rfl
  | some t =>
    dsimp only
    split
    case isFalse => rfl
    case isTrue =>
      have hpre := h t hrow
      have hlen : t.length ≤ total := hpre.length_le.trans (List.length_take_le _ _)
      have ht : t = buffer.take t.length := by
        calc t = (buffer.take total).take t.length := List.prefix_iff_eq_take.mp hpre
          _ = buffer.take t.length := by rw [List.take_take, Nat.min_eq_left hlen]
      calc t ++ (buffer.drop t.length).take (total - t.length)
          = buffer.take t.length ++ (buffer.drop t.length).take (total - t.length) := by rw [← ht]
        _ = buffer.take (t.length + (total - t.length)) := List.take_add.symm
        _ = buffer.take total := by rw [Nat.add_sub_cancel' hlen]

/-- The row loop mirrors the rows it gets to. -/
lemma RowSteps.tracks [F64] {tokens : Grid} {batch : List Entry} {s s' : V2SuffixProposer}
    {r : Except Raised (List SuffixRowOut)} (h : RowSteps tokens batch s r s')
    {row : ReqId → List Token} (hshows : ∀ e ∈ batch, 0 ≤ e.total → e.total.toNat ≤ tokens.ncols →
      ∀ buffer, tokens.rows[e.index]? = some buffer → buffer.take e.total.toNat = row e.rid)
    (hpre : ∀ id t, s.mirror.lookup id = some t → t <+: row id) :
    (∀ id t, s'.mirror.lookup id = some t → t <+: row id) ∧
      (∀ id, s.mirror.lookup id = some (row id) → s'.mirror.lookup id = some (row id)) ∧
      ∀ outs, r = .ok outs → ∀ id ∈ batch.map (·.rid), s'.mirror.lookup id = some (row id) := by
  induction h with
  | nil => exact ⟨hpre, fun _ h => h, fun _ _ _ hid => by cases hid⟩
  | bounds _ | index _ => exact ⟨hpre, fun _ h => h, fun _ hr => by cases hr⟩
  | @row s s' e batch buffer suffix score matched r hgood hbuffer _ _ _ ih =>
    have hbounds : 0 ≤ e.total ∧ e.total.toNat ≤ tokens.ncols := by
      simp only [outOfBounds, ne_eq, Bool.or_eq_true, decide_eq_true_eq, not_or] at hgood
      omega
    have hrow := hshows e List.mem_cons_self hbounds.1 hbounds.2 buffer hbuffer
    have hmirrored : s.mirrored e.rid e.total.toNat buffer = row e.rid := by
      rw [← hrow]
      apply mirrored_of_prefix
      intro t ht
      rw [hrow]
      exact hpre e.rid t ht
    have hlookup (id : ReqId) : (s.afterRow e.rid e.total.toNat buffer suffix).mirror.lookup id
        = if id = e.rid then some (row e.rid) else s.mirror.lookup id := by
      rw [afterRow, Map.lookup_put, hmirrored]
    obtain ⟨hpre', hkeeps, hall⟩ := ih (fun e' he' => hshows e' (List.mem_cons_of_mem _ he'))
      fun id t ht => by
        rw [hlookup] at ht
        split at ht
        case isTrue heq =>
          cases ht
          rw [heq]
        case isFalse => exact hpre id t ht
    refine ⟨hpre', fun id hid => hkeeps id ?_, fun outs hr id hid => ?_⟩
    · rw [hlookup]
      split
      case isTrue heq => rw [heq]
      case isFalse => exact hid
    · cases r with
      | error e' => cases hr
      | ok outs' =>
        rcases List.mem_cons.mp hid with heq | hrest
        · apply hkeeps
          rw [hlookup, if_pos heq, heq]
        · exact hall outs' rfl id hrest

/-- A call on rows that were only appended to keeps the mirrors prefixes, and a call that returns mirrors
the whole rows. -/
lemma Exit.tracks [F64] {s : V2SuffixProposer} {b : Batch} {out : Outcome} (hexit : Exit s b out)
    (hkeyed : s.Keyed) (hinv : s.cache.Inv) {last : List ReqId × (ReqId → List Token)}
    (h : s.Tracks last) {row : ReqId → List Token} {args : List ℕ × Grid × List ℤ} (hread : b.read = .ok args)
    (hshows : b.Shows row) (hgrows : ∀ id ∈ b.requestIds, id ∈ last.1 → last.2 id <+: row id) :
    out.2.Tracks (b.requestIds, row) ∧
      ∀ p, out.1 = .ok p → ∀ id ∈ b.requestIds, out.2.mirror.lookup id = some (row id) := by
  have hran {indices : List ℕ} {tokens : Grid} {totals : List ℤ} {s1 s2 : V2SuffixProposer}
      {r : Except Raised (List SuffixRowOut)} (hread : b.read = .ok (indices, tokens, totals))
      (hdepart : s.depart b.o b.requestIds = some s1)
      (hsteps : RowSteps tokens (entries b.requestIds indices totals) s1 r s2) :
      s2.Tracks (b.requestIds, row) ∧
        ∀ outs, r = .ok outs → ∀ id ∈ b.requestIds, s2.mirror.lookup id = some (row id) := by
    have hkeyed1 := (hkeyed.depart hinv hdepart).1
    obtain ⟨cache, mirror, widths, gate, ingested, hrun, _, _, _, _, hm, _⟩ :=
      depart_spec hinv b.o b.requestIds
    rw [hdepart] at hrun
    cases hrun
    have hstay (id : ReqId) (t : List Token) (ht : mirror.lookup id = some t) :
        id ∈ b.requestIds ∧ t <+: row id := by
      rw [hm] at ht
      split at ht
      case isTrue hid =>
        obtain ⟨hlast, hpre⟩ := h id t ht
        exact ⟨hid, hpre.trans (hgrows id hid hlast)⟩
      case isFalse => cases ht
    obtain ⟨hpre, _, hall⟩ := hsteps.tracks (hshows _ _ _ hread) fun id t ht => (hstay id t ht).2
    refine ⟨fun id t ht => ⟨?_, hpre id t ht⟩, fun outs hr id hid => ?_⟩
    · rcases (hsteps.keyed hkeyed1).2.1 id (Map.mem_of_lookup ht) with hold | hnew
      · obtain ⟨t', ht'⟩ := Map.exists_lookup hold
        exact (hstay id t' ht').1
      · exact mem_rids_entries hnew
    · rw [← rids_entries (entries_length hread)] at hid
      exact hall outs hr id hid
  cases hexit with
  | rejected hrejected =>
    obtain ⟨indices, tokens, totals⟩ := args
    have hlen := entries_length hread
    rw [entries, List.length_map, List.length_zip, List.length_zip] at hlen
    have hshort := hrejected indices tokens totals hread
    omega
  | failed hread' _ hdepart hsteps =>
    exact ⟨(hran hread' hdepart hsteps).1, fun p hp => by cases hp⟩
  | finished hread' _ hdepart hsteps =>
    obtain ⟨htracks, hall⟩ := hran hread' hdepart hsteps
    exact ⟨fun id t ht => htracks id t ht, fun p _ => hall _ rfl⟩

/-! ## Runs -/

lemma tables_new {cfg : Config} {k maxModelLen minLen : ℕ} {uniformK widthGate : Bool}
    {s : V2SuffixProposer} (hs : new cfg k maxModelLen minLen uniformK widthGate = .ok s) :
    s.Keyed ∧ s.cache.Inv ∧ s.mirror = ∅ := by
  unfold V2SuffixProposer.new at hs
  split at hs
  case isFalse => cases hs
  case isTrue =>
    obtain rfl := Except.ok.inj hs
    exact ⟨keyed_empty .., Cache.inv_new cfg, rfl⟩

section runs
variable [F64] {s s' : V2SuffixProposer}

/-- However a call ends, the tables stay together. A call that returns has entered the whole batch. -/
lemma Exit.keyed {b : Batch} {out : Outcome} (hexit : Exit s b out) (h : s.Keyed) (hinv : s.cache.Inv) :
    out.2.Keyed ∧ ∀ p, out.1 = .ok p → out.2.Covers b.requestIds := by
  cases hexit with
  | rejected _ => exact ⟨h, fun p hp => by cases hp⟩
  | failed _ _ hdepart hsteps =>
    exact ⟨(hsteps.keyed (h.depart hinv hdepart).1).1, fun p hp => by cases hp⟩
  | finished hread _ hdepart hsteps =>
    obtain ⟨hkeyed1, hmirror⟩ := h.depart hinv hdepart
    obtain ⟨hkeyed, hsub, _, hall⟩ := hsteps.keyed hkeyed1
    refine ⟨⟨hkeyed.widths, hkeyed.gate⟩, fun p _ => ?_⟩
    have hcovers : Covers _ b.requestIds := hkeyed.covers fun id => by
      constructor
      · intro hid
        rcases hsub id hid with hold | hnew
        · exact ((hmirror id).mp hold).2
        · exact mem_rids_entries hnew
      · intro hid
        rw [← rids_entries (entries_length hread)] at hid
        exact hall _ rfl id hid
    exact ⟨hcovers.mirror, hcovers.widths, hcovers.gate⟩

omit [F64] in
lemma Keyed.clearWidths (h : s.Keyed) : s.clearWidths.Keyed := by
  obtain ⟨widths, gate, hcleared, hw, hg⟩ := clearWidths_spec s
  rw [hcleared]
  refine ⟨fun id => ?_, fun id => ?_⟩
  · rw [← h.widths, ← AList.lookup_isSome, hw, Option.isSome_map, AList.lookup_isSome]
  · refine Iff.trans ?_ (h.gate id)
    have hsome : (gate.lookup id).isSome = (s.gate.lookup id).isSome := by
      rw [hg]
      split
      · rw [Option.isSome_map]
      · rfl
    rw [← AList.lookup_isSome, hsome, AList.lookup_isSome]

/-- Every operation keeps the tables together. -/
lemma Keyed.op (h : s.Keyed) (hinv : s.cache.Inv) {operation : Op} (hop : s.op operation = some s') :
    s'.Keyed := by
  cases operation with
  | propose b =>
    obtain ⟨out, hout, hexit⟩ := call_exit hinv b
    rw [V2SuffixProposer.op, hout] at hop
    cases hop
    exact (hexit.keyed h hinv).1
  | clearWidths =>
    cases hop
    exact h.clearWidths
  | addSequence tokens | addPrompt tokens =>
    obtain ⟨cache, _, rfl⟩ := Option.map_eq_some_iff.mp hop
    exact ⟨h.widths, h.gate⟩

/-- The tables of a reachable proposer are together. -/
lemma Reachable.keyed (h : Reachable s) : s.Keyed := by
  obtain ⟨cfg, k, maxModelLen, minLen, uniformK, widthGate, s0, ops, hnew, hrun⟩ := h
  obtain ⟨hkeyed, hinv, _⟩ := tables_new hnew
  have hstep (s : V2SuffixProposer) (operation : Op) (s' : V2SuffixProposer)
      (h : s.Keyed ∧ s.cache.Inv) (hop : op s operation = some s') : s'.Keyed ∧ s'.cache.Inv := by
    obtain ⟨s1, hop', hinv1⟩ := op_total h.2 operation
    rw [hop] at hop'
    cases hop'
    exact ⟨h.1.op h.2 hop, hinv1⟩
  exact (run_inv hstep ⟨hkeyed, hinv⟩ hrun).1

/-- After a run on rows that were only appended to, the mirrors are prefixes of them. -/
lemma Tracks.run {last : List ReqId × (ReqId → List Token)} (h : s.Tracks last) (hkeyed : s.Keyed)
    (hinv : s.cache.Inv) {history ops : List RowOp} (happ : AppendOnly last (history ++ ops))
    (hrun : Lib.run op s (history.map Prod.fst) = some s') :
    ∃ last', s'.Tracks last' ∧ AppendOnly last' ops := by
  induction history generalizing s last with
  | nil =>
    cases hrun
    exact ⟨last, h, happ⟩
  | cons entry history ih =>
    rw [List.map_cons, run_cons, Option.bind_eq_some_iff] at hrun
    obtain ⟨s1, hop, hrest⟩ := hrun
    obtain ⟨s1', hop', hinv1⟩ := op_total hinv entry.1
    obtain rfl : s1' = s1 := Option.some.inj (hop'.symm.trans hop)
    have hkeyed1 := hkeyed.op hinv hop
    obtain ⟨operation, row⟩ := entry
    cases operation with
    | propose b =>
      obtain ⟨out, hout, hexit⟩ := call_exit hinv b
      rw [op, hout] at hop
      cases hop
      rw [List.cons_append, AppendOnly] at happ
      cases hread : b.read with
      | error e =>
        rw [hread] at happ
        have hsame : out.2 = s := by
          rw [proposeSuffixOnly, hread] at hout
          cases hout
          rfl
        exact ih (by rw [hsame]; exact h) hkeyed1 hinv1 happ hrest
      | ok args =>
        rw [hread] at happ
        obtain ⟨hshows, hgrows, happ'⟩ := happ
        exact ih (hexit.tracks hkeyed hinv h hread hshows hgrows).1 hkeyed1 hinv1 happ' hrest
    | clearWidths =>
      cases hop
      obtain ⟨widths, gate, hcleared, _⟩ := clearWidths_spec s
      exact ih (by rw [hcleared]; exact h) hkeyed1 hinv1 happ hrest
    | addSequence tokens | addPrompt tokens =>
      obtain ⟨cache, _, rfl⟩ := Option.map_eq_some_iff.mp hop
      exact ih (s := { s with cache }) h hkeyed1 hinv1 happ hrest

/-- The rows of a loop that ends are in bounds. -/
lemma RowSteps.within {tokens : Grid} {batch : List Entry} {outs : List SuffixRowOut}
    (h : RowSteps tokens batch s (.ok outs) s') (e : Entry) (he : e ∈ batch) :
    0 ≤ e.total ∧ e.total.toNat ≤ tokens.ncols ∧ ∃ buffer, tokens.rows[e.index]? = some buffer := by
  generalize hr : Except.ok outs = r at h
  induction h generalizing outs with
  | nil => cases he
  | bounds _ | index _ => cases hr
  | @row s s' e' batch buffer suffix score matched r hgood hbuffer _ _ _ ih =>
    rcases List.mem_cons.mp he with rfl | hrest
    · simp only [outOfBounds, ne_eq, Bool.or_eq_true, decide_eq_true_eq, not_or] at hgood
      exact ⟨by omega, by omega, buffer, hbuffer⟩
    · cases r with
      | error _ => cases hr
      | ok outs' => exact ih hrest rfl

/-- What holds of a proposer, whatever it has been through: the tables are together; a call keeps them
together, however it ends, covers the batch if it returns, and hands over what departs; a retraction leaves
no published width, and the call after it trains no gate. -/
structure Consistent (s : V2SuffixProposer) : Prop where
  keyed : s.Keyed
  calls : ∀ b, ∃ out, s.proposeSuffixOnly b = some out ∧ out.2.Keyed ∧ s.Ingests b out.2 ∧
    ∀ p, out.1 = .ok p → out.2.Covers b.requestIds
  retracted : ∀ id w, s.clearWidths.widths.lookup id = some w → w = 0
  blinded : ∀ b out, b.requestIds.Nodup → s.clearWidths.proposeSuffixOnly b = some out →
    s.clearWidths.KeepsEwma out.2

lemma Keyed.consistent (h : s.Keyed) (hinv : s.cache.Inv) : s.Consistent where
  keyed := h
  calls := fun b => by
    obtain ⟨out, hout, hexit⟩ := call_exit hinv b
    obtain ⟨hkeyed, hcovers⟩ := hexit.keyed h hinv
    exact ⟨out, hout, hkeyed, hexit.ingests h hinv, hcovers⟩
  retracted := fun id w hw => by
    obtain ⟨widths, gate, hcleared, hlookup, _⟩ := clearWidths_spec s
    rw [hcleared] at hw
    rw [hlookup] at hw
    obtain ⟨_, _, rfl⟩ := Option.map_eq_some_iff.mp hw
    rfl
  blinded := fun b out hids hout => by
    have hkeyed := h.clearWidths
    obtain ⟨widths, gate, hcleared, _, hg⟩ := clearWidths_spec s
    have hinv' : s.clearWidths.cache.Inv := by
      rw [hcleared]
      exact hinv
    obtain ⟨out', hout', hexit⟩ := call_exit hinv' b
    obtain rfl : out' = out := Option.some.inj (hout'.symm.trans hout)
    apply hexit.keepsEwma hkeyed hinv' hids
    intro id g hlookup
    -- a request with a gate has a published width, so the retraction has got to it
    rw [hcleared] at hlookup
    rw [hg] at hlookup
    split at hlookup
    case isTrue =>
      obtain ⟨_, _, rfl⟩ := Option.map_eq_some_iff.mp hlookup
      rfl
    case isFalse habsent =>
      exact absurd ((h.widths id).mpr ((h.gate id).mp (Map.mem_of_lookup hlookup)).2) habsent

end runs

/-- After every run of calls, retractions and warm starts the tables are consistent. Where each row is
only appended to while its request stays in the batch, a call that returns leaves the first `total` tokens
of each row as the mirror of its request. -/
theorem tables_consistent [F64] {cfg : Config} {k maxModelLen minLen : ℕ} {uniformK widthGate : Bool}
    {s : V2SuffixProposer} (hs : new cfg k maxModelLen minLen uniformK widthGate = .ok s) (ops : List Op) :
    ∃ s', Lib.run op s ops = some s' ∧ s'.Consistent ∧
      ∀ (history : List RowOp) (b : Batch) (row : ReqId → List Token), history.map Prod.fst = ops →
        AppendOnly ([], fun _ => []) (history ++ [(.propose b, row)]) →
        ∀ p s2, s'.proposeSuffixOnly b = some (.ok p, s2) →
        ∀ indices tokens totals, b.read = .ok (indices, tokens, totals) →
        ∀ e ∈ entries b.requestIds indices totals, ∃ buffer, tokens.rows[e.index]? = some buffer ∧
          s2.mirror.lookup e.rid = some (buffer.take e.total.toNat) := by
  obtain ⟨hkeyed0, hinv0, hempty⟩ := tables_new hs
  obtain ⟨s', hrun, hinv⟩ := run_total (fun s operation hs => op_total hs operation) hinv0 ops
  have hkeyed : s'.Keyed := Reachable.keyed ⟨_, _, _, _, _, _, _, _, hs, hrun⟩
  refine ⟨s', hrun, hkeyed.consistent hinv, ?_⟩
  rintro history b row rfl happ p s2 hcall indices tokens totals hread e he
  have htracks0 : s.Tracks ([], fun _ => []) := fun id t ht => by simp [hempty] at ht
  obtain ⟨last, htracks, hlast⟩ := htracks0.run hkeyed0 hinv0 happ hrun
  rw [AppendOnly, hread] at hlast
  obtain ⟨hshows, hgrows, _⟩ := hlast
  obtain ⟨out, hout, hexit⟩ := call_exit hinv b
  obtain rfl : out = (.ok p, s2) := Option.some.inj (hout.symm.trans hcall)
  have hmirror := (hexit.tracks hkeyed hinv htracks hread hshows hgrows).2 p rfl
  cases hexit with
  | finished hread' _ _ hsteps =>
    rw [hread] at hread'
    cases hread'
    obtain ⟨hpos, hle, buffer, hbuffer⟩ := hsteps.within e he
    refine ⟨buffer, hbuffer, ?_⟩
    rw [hshows indices tokens totals hread e he hpos hle buffer hbuffer]
    exact hmirror e.rid (mem_rids_entries (List.mem_map_of_mem he))

/-- The run of the departing requests, with a retraction and a call that raises. -/
theorem tables_consistent_departing :
    ∃ s', Lib.run op (empty (Config.ofN 1 Nat.one_pos) 3 100 1 true true three_pos) departingOps
      = some s' ∧ s'.Consistent := by
  obtain ⟨s', hrun, h, _⟩ := tables_consistent
    (show new (Config.ofN 1 Nat.one_pos) 3 100 1 true true
      = .ok (empty (Config.ofN 1 Nat.one_pos) 3 100 1 true true three_pos) from rfl) departingOps
  exact ⟨s', hrun, h⟩

end V2SuffixProposer
end SuffixHybrid
