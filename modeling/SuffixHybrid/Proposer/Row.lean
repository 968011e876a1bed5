import SuffixHybrid.Proposer.Basic

/-!
# Rows and departures of the proposer

A row ends, with an explicit result (`row_spec`), and so does the departure loop (`depart_spec`). The
two are all that a call does to the state before it counts its step (`rows_cases`).
-/

namespace SuffixHybrid
open Lib

namespace V2SuffixProposer

lemma continues_length {total : ℕ} {row t : List Token} (h : continues total row t = true) :
    t.length ≤ total := by
  unfold continues at h
  split at h
  · assumption
  · cases h

/-- The suffix that a row publishes, from the result of its lookup. -/
def suffixOf [F64] (s : V2SuffixProposer) (rid : ReqId) (total : ℕ) (buffer suffix : List Token) :
    List Token :=
  s.narrowed (s.trained rid total buffer) (s.found suffix)

/-- The draft of a row, from the result of its lookup. -/
def rowOut [F64] (s : V2SuffixProposer) (rid : ReqId) (total : ℕ) (buffer suffix : List Token) :
    SuffixRowOut :=
  s.publish ((s.mirrored rid total buffer).headD 0) (s.suffixOf rid total buffer suffix)

/-- The proposer after a row, from the result of its lookup. -/
def afterRow [F64] (s : V2SuffixProposer) (rid : ReqId) (total : ℕ) (buffer suffix : List Token) :
    V2SuffixProposer :=
  { s with
    mirror := s.mirror.put rid (s.mirrored rid total buffer)
    resets := s.resets + if (s.mirror.lookup rid).isSome && !s.cont rid total buffer then 1 else 0
    gate := if s.widthGate then
      s.gate.put rid (s.recorded (s.trained rid total buffer)
        (s.suffixOf rid total buffer suffix).length)
      else s.gate
    hits := s.hits + if (s.suffixOf rid total buffer suffix).length > 0 then 1 else 0
    hitTokens := s.hitTokens + (s.suffixOf rid total buffer suffix).length
    widths := s.widths.put rid (s.rowOut rid total buffer suffix).width }

@[simp] lemma publish_realW (s : V2SuffixProposer) (pad : Token) (suffix : List Token) :
    (s.publish pad suffix).realW = suffix.length := by
  unfold publish
  split <;> rfl

/-- A row ends. Its lookup runs on the new mirror. -/
lemma row_spec [F64] {s : V2SuffixProposer} (hinv : s.cache.Inv) (rid : ReqId) (total : ℕ)
    (buffer : List Token) : ∃ suffix score matched,
      s.cache.speculate (s.mirrored rid total buffer) s.k = some (suffix, score, matched) ∧
      suffix.length ≤ s.k ∧
      s.row rid total buffer
        = some (s.rowOut rid total buffer suffix, s.afterRow rid total buffer suffix) := by
  obtain ⟨suffix, score, matched, hspec, hle⟩ := hinv.speculate (s.mirrored rid total buffer) s.k
  refine ⟨suffix, score, matched, hspec, hle, ?_⟩
  simp only [row, hspec, Option.bind_eq_bind, Option.bind_some, publish_realW]
  rfl

lemma found_length_le (s : V2SuffixProposer) {suffix : List Token} (h : suffix.length ≤ s.k) :
    (s.found suffix).length ≤ s.k := by
  unfold found
  split
  · rw [List.length_take]
    omega
  · exact Nat.zero_le _

/-- The published suffix begins the found one. It is empty only if nothing was found. -/
lemma narrowed_prefix (s : V2SuffixProposer) (g : Option GateRow) (suffix : List Token) :
    s.narrowed g suffix <+: suffix ∧ (s.narrowed g suffix = [] ↔ suffix = []) := by
  unfold narrowed
  split
  case isTrue h =>
    have hpos : 0 < s.gateWidth g := by
      have hk := s.k_pos
      unfold gateWidth
      split <;> omega
    refine ⟨List.take_prefix _ _, ?_⟩
    rw [List.take_eq_nil_iff]
    constructor
    · rintro (hzero | hnil)
      · omega
      · exact hnil
    · exact Or.inr
  case isFalse => exact ⟨List.prefix_rfl, Iff.rfl⟩

lemma suffixOf_length_le [F64] (s : V2SuffixProposer) (rid : ReqId) (total : ℕ) (buffer : List Token)
    {suffix : List Token} (h : suffix.length ≤ s.k) :
    (s.suffixOf rid total buffer suffix).length ≤ s.k :=
  (s.narrowed_prefix _ _).1.length_le.trans (s.found_length_le h)

/-! ## Departures -/

/-- The mirrors that a list of departures donates. -/
def donated (s : V2SuffixProposer) (rids : List ReqId) : List (List Token) :=
  (rids.filterMap fun rid => s.mirror.lookup rid).filter fun row => row.length > 8

/-- A departed request leaves the tables and donates its mirror. -/
lemma departRow_spec {s : V2SuffixProposer} (hinv : s.cache.Inv) {rid : ReqId} {row : List Token}
    (hrow : s.mirror.lookup rid = some row) :
    ∃ cache ingested, departRow s rid = some { s with
        cache
        mirror := s.mirror.erase rid
        widths := s.widths.erase rid
        gate := s.gate.erase rid
        ingested } ∧ cache.Inv ∧ cache.cfg = s.cache.cfg ∧
      Lib.run Cache.add s.cache (s.donated [rid]) = some cache ∧
      ingested = s.ingested + (s.donated [rid]).length := by
  have hone : [rid].filterMap (fun rid => s.mirror.lookup rid) = [row] := by simp [hrow]
  obtain ⟨cache, hadd, hc, hcfg⟩ := hinv.add row
  unfold departRow donated
  rw [hrow, hone]
  by_cases hlong : row.length > 8
  · exact ⟨cache, s.ingested + 1, by simp [hlong, hadd], hc, hcfg, by simp [hlong, hadd], by simp [hlong]⟩
  · exact ⟨s.cache, s.ingested, by simp [hlong], hinv, rfl, by simp [hlong], by simp [hlong]⟩

/-- Departures take the requests out of the tables and feed the cache with their mirrors. -/
lemma run_departRow {s : V2SuffixProposer} (hinv : s.cache.Inv) {rids : List ReqId}
    (hrids : rids.Nodup) (htracked : ∀ rid ∈ rids, rid ∈ s.mirror) :
    ∃ cache mirror widths gate ingested,
      Lib.run departRow s rids = some { s with cache, mirror, widths, gate, ingested } ∧
      cache.Inv ∧ cache.cfg = s.cache.cfg ∧
      Lib.run Cache.add s.cache (s.donated rids) = some cache ∧
      ingested = s.ingested + (s.donated rids).length ∧
      (∀ id, mirror.lookup id = if id ∈ rids then none else s.mirror.lookup id) ∧
      (∀ id, widths.lookup id = if id ∈ rids then none else s.widths.lookup id) ∧
      ∀ id, gate.lookup id = if id ∈ rids then none else s.gate.lookup id := by
  induction rids generalizing s with
  | nil =>
    exact ⟨s.cache, s.mirror, s.widths, s.gate, s.ingested, rfl, hinv, rfl, rfl, rfl, by simp, by simp,
      by simp⟩
  | cons rid rids ih =>
    obtain ⟨hnew, hrest⟩ := List.nodup_cons.mp hrids
    obtain ⟨row, hrow⟩ := Map.exists_lookup (htracked rid (by simp))
    obtain ⟨c1, i1, hstep, hc1, hcfg1, hfed1, hi1⟩ := departRow_spec hinv hrow
    obtain ⟨cache, mirror, widths, gate, ingested, hrun, hc, hcfg, hfed, hing, hm, hw, hg⟩ :=
      ih (s := { s with
        cache := c1
        mirror := s.mirror.erase rid
        widths := s.widths.erase rid
        gate := s.gate.erase rid
        ingested := i1 }) hc1 hrest (by
          intro id hid
          have hne : id ≠ rid := fun h => hnew (h ▸ hid)
          exact AList.mem_erase.mpr ⟨hne, htracked id (by simp [hid])⟩)
    -- the other requests are mirrored as before
    have hsame : rids.filterMap (fun id => (s.mirror.erase rid).lookup id)
        = rids.filterMap fun id => s.mirror.lookup id := by
      apply List.filterMap_congr
      intro id hid
      exact AList.lookup_erase_ne fun h => hnew (h ▸ hid)
    have hdon : s.donated (rid :: rids) = s.donated [rid] ++ s.donated rids := by
      simp only [donated, ← List.filter_append, ← List.filterMap_append, List.singleton_append]
    rw [donated, hsame] at hfed hing
    refine ⟨cache, mirror, widths, gate, ingested, by simp [hstep, hrun], hc, hcfg.trans hcfg1, ?_, ?_,
      fun id => ?_, fun id => ?_, fun id => ?_⟩
    · rw [hdon, run_append, hfed1, Option.bind_some]
      exact hfed
    · rw [hing, hdon, List.length_append, hi1, add_assoc]
      rfl
    · rw [hm, Map.lookup_erase_eq]
      by_cases h : id = rid <;> simp [h]
    · rw [hw, Map.lookup_erase_eq]
      by_cases h : id = rid <;> simp [h]
    · rw [hg, Map.lookup_erase_eq]
      by_cases h : id = rid <;> simp [h]

lemma mem_gone {o : HashOrder ReqId} {s : V2SuffixProposer} {ids : List ReqId} {id : ReqId} :
    id ∈ s.gone o ids ↔ id ∈ s.mirror ∧ id ∉ ids := by
  simp [gone, AList.mem_keys]

lemma nodup_gone (o : HashOrder ReqId) (s : V2SuffixProposer) (ids : List ReqId) :
    (s.gone o ids).Nodup :=
  (o.nodup_order.mpr s.mirror.keys_nodup).filter _

/-- The departure loop ends. The requests of the batch keep their tables. -/
lemma depart_spec {s : V2SuffixProposer} (hinv : s.cache.Inv) (o : HashOrder ReqId)
    (ids : List ReqId) :
    ∃ cache mirror widths gate ingested,
      s.depart o ids = some { s with cache, mirror, widths, gate, ingested } ∧
      cache.Inv ∧ cache.cfg = s.cache.cfg ∧
      Lib.run Cache.add s.cache (s.donated (s.gone o ids)) = some cache ∧
      ingested = s.ingested + (s.donated (s.gone o ids)).length ∧
      (∀ id, mirror.lookup id = if id ∈ ids then s.mirror.lookup id else none) ∧
      (∀ id, widths.lookup id = if id ∈ s.gone o ids then none else s.widths.lookup id) ∧
      ∀ id, gate.lookup id = if id ∈ s.gone o ids then none else s.gate.lookup id := by
  obtain ⟨cache, mirror, widths, gate, ingested, hrun, hc, hcfg, hfed, hing, hm, hw, hg⟩ :=
    run_departRow hinv (nodup_gone o s ids) fun id hid => (mem_gone.mp hid).1
  refine ⟨cache, mirror, widths, gate, ingested, hrun, hc, hcfg, hfed, hing, fun id => ?_, hw, hg⟩
  rw [hm]
  by_cases hid : id ∈ ids
  · simp [mem_gone, hid]
  · by_cases hmem : id ∈ s.mirror
    · simp [mem_gone, hid, hmem]
    · simp [mem_gone, hid, hmem, AList.lookup_eq_none.mpr hmem]

/-! ## Retractions -/

lemma foldl_clearWidth (rids : List ReqId) (s : V2SuffixProposer) :
    ∃ widths gate, rids.foldl clearWidth s = { s with widths, gate } ∧
      (∀ id, widths.lookup id = if id ∈ rids then some 0 else s.widths.lookup id) ∧
      ∀ id, gate.lookup id = if id ∈ rids then
        (s.gate.lookup id).map fun g => { g with lastWidth := 0 } else s.gate.lookup id := by
  induction rids generalizing s with
  | nil => exact ⟨s.widths, s.gate, rfl, by simp, by simp⟩
  | cons rid rids ih =>
    obtain ⟨widths, gate, hrun, hw, hg⟩ := ih (s.clearWidth rid)
    have hgate (id : ReqId) : (s.clearWidth rid).gate.lookup id = if id = rid then
        (s.gate.lookup id).map fun g => { g with lastWidth := 0 } else s.gate.lookup id := by
      unfold clearWidth
      cases hrid : s.gate.lookup rid with
      | none =>
        dsimp only
        split
        case isTrue heq => rw [heq, hrid, Option.map_none]
        case isFalse => rfl
      | some g =>
        dsimp only
        rw [Map.lookup_put]
        split
        case isTrue heq => rw [heq, hrid, Option.map_some]
        case isFalse => rfl
    refine ⟨widths, gate, hrun, fun id => ?_, fun id => ?_⟩
    · rw [hw, clearWidth, Map.lookup_put]
      by_cases hid : id = rid <;> simp [hid]
    · rw [hg, hgate]
      by_cases hid : id = rid
      · subst hid
        cases s.gate.lookup id <;> simp
      · simp [hid]

/-- A retraction sets every published width to zero, and the last widths of the gates with them. -/
lemma clearWidths_spec (s : V2SuffixProposer) :
    ∃ widths gate, s.clearWidths = { s with widths, gate } ∧
      (∀ id, widths.lookup id = (s.widths.lookup id).map fun _ => 0) ∧
      ∀ id, gate.lookup id = if id ∈ s.widths then
        (s.gate.lookup id).map fun g => { g with lastWidth := 0 } else s.gate.lookup id := by
  obtain ⟨widths, gate, hrun, hw, hg⟩ := foldl_clearWidth s.widths.keys s
  refine ⟨widths, gate, hrun, fun id => ?_, fun id => ?_⟩
  · rw [hw]
    split
    case isTrue hid =>
      obtain ⟨w, hlookup⟩ := Map.exists_lookup (AList.mem_keys.mpr hid)
      rw [hlookup, Option.map_some]
    case isFalse hid =>
      rw [← AList.mem_keys] at hid
      rw [AList.lookup_eq_none.mpr hid, Option.map_none]
  · rw [hg]
    simp only [AList.mem_keys]

end V2SuffixProposer
end SuffixHybrid
