import SuffixHybrid.Mixer.Diverge

/-!
# The rows of a call

What the rows of both splits have in common (`RowStep`): the published draft fits the cap, the native
count is the length of the common prefix with the native draft, and the request keeps the proposal.
-/

namespace SuffixHybrid
open Lib

namespace HybridMixer

/-- The feedback of row `i`. -/
def feedbackAt (accepted : Option (List ℤ)) (i : ℕ) : ℤ :=
  accepted.elim (-1) fun v => v[i]?.getD (-1)

lemma row_diverge [F64] {s : HybridMixer} (hdiv : s.env.diverge = true) {decide : Decide}
    {accepted : Option (List ℤ)} {i : ℕ} (ha : ∀ v, accepted = some v → i < v.length) (id : ReqId)
    (native : List Token) :
    s.row decide accepted i id native = s.divergeRow decide i id native (feedbackAt accepted i) := by
  unfold HybridMixer.row
  rw [if_pos hdiv]
  cases accepted with
  | none => rfl
  | some v =>
    have hi := ha v rfl
    simp [feedbackAt, List.getElem?_eq_getElem hi]

lemma row_legacy [F64] {s : HybridMixer} (hdiv : ¬ s.env.diverge = true) (decide : Decide)
    (accepted : Option (List ℤ)) (i : ℕ) (id : ReqId) (native : List Token) :
    s.row decide accepted i id native = s.legacyRow decide i id native := by
  unfold HybridMixer.row
  rw [if_neg hdiv]

/-- What a row publishes and leaves behind, under either split. -/
structure RowStep (s : HybridMixer) (same : List Token → List Token → Bool) (row : List Token)
    (id : ReqId) (native draft : List Token) (s' : HybridMixer) : Prop where
  cache : s'.cache.Inv
  cache_eq : (∀ p, s.previous.lookup id = some p → same p.context row = true) →
    s'.cache = s.cache
  k : s'.k = s.k
  maxModelLen : s'.maxModelLen = s.maxModelLen
  env : s'.env = s.env
  lastNative : s'.lastNative = s.lastNative ++ [lcp draft native]
  previous : ∃ p, s'.previous = s.previous.put id p ∧
    Proposed p (contextAfter same row (s.previous.lookup id)) native draft ∧
    (p.suffixEstimate = none ∨ p.suffixEstimate = (s.previous.lookup id).bind (·.suffixEstimate))
  length_le : draft.length ≤ s.rowCap row.length native
  length_ge : s.rowCap row.length native ≤ draft.length + 1
  length_diverge : s.env.diverge = true → draft.length = s.rowCap row.length native

lemma LegacyRow.draft_length [F64] {s s' : HybridMixer} {same : List Token → List Token → Bool}
    {row native tail draft : List Token} {id : ReqId} {cache : Cache}
    (h : LegacyRow s same row id native cache tail draft s') (hinv : cache.Inv) :
    draft.length ≤ s.rowCap row.length native ∧
      s.rowCap row.length native ≤ draft.length + 1 := by
  have hcap := rowCap_le_length s row.length native
  obtain ⟨score, m, hlookup⟩ := h.lookup
  obtain ⟨tail', _, _, hlookup', htail⟩ := hinv.speculate (contextAfter same row
    (s.previous.lookup id) ++ (native.take (s.rowKept same row (s.previous.lookup id) cache
      (s.rowCap row.length native) - 1))) (s.rowCap row.length native)
  have heq : tail = tail' := by
    rw [hlookup] at hlookup'
    exact congrArg Prod.fst (Option.some.inj hlookup')
  rw [← heq] at htail
  rw [h.draft_eq, legacyDraft]
  split
  case isTrue =>
    rw [List.length_take_of_le hcap]
    exact ⟨le_rfl, Nat.le_succ _⟩
  case isFalse hne =>
    have htail0 : 0 < tail.length := List.length_pos_iff.mpr fun h0 => hne (Or.inr h0)
    have hpos : 0 < s.rowCap row.length native := by omega
    have hle := keptPrefix_le (continues same row (s.previous.lookup id))
      (s.rowBudget cache (rowEstimate same row (s.previous.lookup id))
        (s.rowCap row.length native)) (s.rowCap row.length native)
    have hge := keptPrefix_ge (continues same row (s.previous.lookup id))
      (s.rowBudget cache (rowEstimate same row (s.previous.lookup id))
        (s.rowCap row.length native)) (s.rowCap row.length native)
    obtain ⟨h1, h2⟩ := spliced_length ((s.previous.lookup id).bind (·.suffixEstimate))
      (show tail ≠ [] from fun h0 => hne (Or.inr h0)) hle (keptPrefix_pos hpos) hcap
    exact ⟨h1, by rw [rowKept] at *; omega⟩

/-- A row ends, and its proposal is tracked and reported. -/
theorem row_spec [F64] {s : HybridMixer} (hinv : s.cache.Inv) {decide : Decide}
    {same : List Token → List Token → Bool} {rows : List (List Token)}
    (hd : decide.Compares same rows) {i : ℕ} {row : List Token} (hrow : rows[i]? = some row)
    {accepted : Option (List ℤ)} (ha : ∀ v, accepted = some v → i < v.length) (id : ReqId)
    (native : List Token) :
    ∃ draft s', s.row decide accepted i id native = some (draft, s') ∧
      RowStep s same row id native draft s' := by
  by_cases hdiv : s.env.diverge = true
  · obtain ⟨cache, wins, observed, cand, bucket, draft, s', hrun, hcinv, _, hspec⟩ :=
      divergeRow_spec hinv hd hrow id native (feedbackAt accepted i)
    rw [← row_diverge hdiv ha] at hrun
    obtain ⟨p, hits, published, proposed, hp, hest, rfl⟩ := hspec.after
    have hlen : draft.length = s.rowCap row.length native := by
      rw [hspec.draft_eq]
      exact overlaid_length bucket (rowCap_le_length _ _ _) hspec.cand_length
    refine ⟨draft, _, hrun, ?_⟩
    exact {
      cache := hcinv
      cache_eq := hspec.cache_eq
      k := rfl
      maxModelLen := rfl
      env := rfl
      lastNative := rfl
      previous := ⟨p, rfl, hp, Or.inr hest⟩
      length_le := hlen.le
      length_ge := by omega
      length_diverge := fun _ => hlen }
  · obtain ⟨cache, tail, draft, s', hrun, hcinv, _, hspec⟩ := legacyRow_spec hinv hd hrow id native
    obtain ⟨hle, hge⟩ := hspec.draft_length hcinv
    have hkept := hspec.cache_eq
    rw [← row_legacy hdiv] at hrun
    obtain ⟨p, hp, hest, rfl⟩ := hspec.after
    refine ⟨draft, _, hrun, ?_⟩
    exact {
      cache := hcinv
      cache_eq := hkept
      k := rfl
      maxModelLen := rfl
      env := rfl
      lastNative := rfl
      previous := by
        refine ⟨p, rfl, hp, ?_⟩
        rw [hest]
        split
        · exact Or.inr rfl
        · exact Or.inl rfl
      length_le := hle
      length_ge := hge
      length_diverge := fun h => absurd h hdiv }

end HybridMixer
end SuffixHybrid

/-!
## Calls on a mixer

One call is a feedback pass, a departure pass and the row loop. This module takes the three apart
(`feedback_lookup`, `depart_spec`, `rows_steps`), shows that the mixer invariant `HybridMixer.Inv`
survives them, and joins the two entry points in `call`. `call_spec` says that a call is either
rejected without effect or runs the row loop over the authoritative rows of its arguments.
`Reachable` are the mixers that calls and cache insertions lead to.
-/

namespace SuffixHybrid
open Lib

/-- The record of a request is consistent. -/
structure Previous.WF (p : Previous) (k : ℕ) : Prop where
  native_le : p.native ≤ p.length
  length_le : p.length ≤ k
  hadSuffix : p.hadSuffix = decide (p.native < p.length)

lemma HybridMixer.Proposed.wf {p : Previous} {ctx base draft : List Token} {k : ℕ}
    (h : HybridMixer.Proposed p ctx base draft) (hk : draft.length ≤ k) : p.WF k where
  native_le := by
    rw [h.native, h.length]
    exact lcp_le_left _ _
  length_le := h.length ▸ hk
  hadSuffix := by rw [h.hadSuffix, h.native, h.length]

namespace HybridMixer

/-- The mixer invariant. -/
structure Inv (s : HybridMixer) : Prop where
  cache : s.cache.Inv
  previous : ∀ id p, s.previous.lookup id = some p → p.WF s.k

/-! ## The feedback pass -/

/-- The record of a request after the feedback of its row. -/
def gradeAt [F64] (a : ℤ) (p : Previous) : Previous := if a < 0 then p else grade p a.toNat

lemma gradeAt_of_neg [F64] {a : ℤ} (h : a < 0) (p : Previous) : gradeAt a p = p := by
  simp [gradeAt, h]

/-- Feedback moves the estimates only. -/
lemma gradeAt_fields [F64] (a : ℤ) (p : Previous) :
    (gradeAt a p).context = p.context ∧ (gradeAt a p).native = p.native ∧
      (gradeAt a p).length = p.length ∧ (gradeAt a p).hadSuffix = p.hadSuffix ∧
      (gradeAt a p).div = p.div := by
  unfold gradeAt grade
  split
  · exact ⟨rfl, rfl, rfl, rfl, rfl⟩
  · split <;> exact ⟨rfl, rfl, rfl, rfl, rfl⟩

/-- Two mixers that differ in estimates and counters of tested tokens only. -/
structure SameBut (s s' : HybridMixer) : Prop where
  cache : s'.cache = s.cache
  k : s'.k = s.k
  maxModelLen : s'.maxModelLen = s.maxModelLen
  env : s'.env = s.env
  initial : s'.initial = s.initial
  lastNative : s'.lastNative = s.lastNative
  keys : s'.previous.keys = s.previous.keys

lemma SameBut.refl (s : HybridMixer) : SameBut s s := ⟨rfl, rfl, rfl, rfl, rfl, rfl, rfl⟩

lemma SameBut.trans {s t u : HybridMixer} (h : SameBut s t) (h' : SameBut t u) : SameBut s u :=
  ⟨h'.cache.trans h.cache, h'.k.trans h.k, h'.maxModelLen.trans h.maxModelLen, h'.env.trans h.env,
    h'.initial.trans h.initial, h'.lastNative.trans h.lastNative, h'.keys.trans h.keys⟩

lemma feedbackRow_same [F64] (s : HybridMixer) (id : ReqId) (a : ℤ) :
    SameBut s (s.feedbackRow id a) := by
  unfold feedbackRow
  split
  · exact SameBut.refl s
  · split
    · exact SameBut.refl s
    · rename_i p hp
      exact ⟨rfl, rfl, rfl, rfl, rfl, rfl, Map.keys_put_of_mem (Map.mem_of_lookup hp) _⟩

lemma feedbackRow_lookup [F64] (s : HybridMixer) (id id' : ReqId) (a : ℤ) :
    (s.feedbackRow id a).previous.lookup id'
      = if id' = id then (s.previous.lookup id).map (gradeAt a) else s.previous.lookup id' := by
  unfold feedbackRow
  by_cases ha : a < 0
  · rw [if_pos ha]
    by_cases hid : id' = id
    · subst hid
      cases s.previous.lookup id' with
      | none => simp
      | some p => simp [gradeAt_of_neg ha]
    · rw [if_neg hid]
  · rw [if_neg ha]
    cases hp : s.previous.lookup id with
    | none =>
      by_cases hid : id' = id
      · subst hid
        simp [hp]
      · rw [if_neg hid]
    | some p =>
      simp only [Map.lookup_put, Option.map_some, gradeAt, if_neg ha]

/-- The feedback pass over a list of rows. -/
lemma foldl_feedback_same [F64] (pairs : List (ReqId × ℤ)) (s : HybridMixer) :
    SameBut s (pairs.foldl (fun s (id, a) => s.feedbackRow id a) s) := by
  induction pairs generalizing s with
  | nil => exact SameBut.refl s
  | cons e pairs ih => exact (feedbackRow_same s e.1 e.2).trans (ih _)

lemma foldl_feedback_lookup [F64] {pairs : List (ReqId × ℤ)} (hnodup : (pairs.map Prod.fst).Nodup)
    (s : HybridMixer) (id : ReqId) :
    (pairs.foldl (fun s (id, a) => s.feedbackRow id a) s).previous.lookup id
      = (s.previous.lookup id).map (gradeAt ((pairs.lookup id).getD (-1))) := by
  induction pairs generalizing s with
  | nil =>
    cases h : s.previous.lookup id with
    | none => simp [h]
    | some p => simp [h, gradeAt_of_neg]
  | cons e pairs ih =>
    obtain ⟨id', a⟩ := e
    obtain ⟨hnew, hrest⟩ := List.nodup_cons.mp hnodup
    rw [List.foldl_cons, ih hrest, feedbackRow_lookup]
    by_cases hid : id = id'
    · subst hid
      have hnone : pairs.lookup id = none := by
        rw [List.lookup_eq_none_iff]
        intro b hb
        have hmem : b.1 ∈ pairs.map Prod.fst := List.mem_map_of_mem hb
        simpa using fun h : id = b.1 => hnew (h ▸ hmem)
      rw [hnone, if_pos rfl, Option.map_map]
      cases s.previous.lookup id with
      | none => rfl
      | some p => simp [gradeAt_of_neg]
    · have hb : (id == id') = false := by simp [hid]
      simp [hid, List.lookup_cons, hb]

/-- The feedback that a call hands to a request. -/
def feedbackOf (ids : List ReqId) (accepted : Option (List ℤ)) (id : ReqId) : ℤ :=
  match accepted with
  | none => -1
  | some v => ((ids.zip v).lookup id).getD (-1)

lemma feedback_same [F64] (s : HybridMixer) (ids : List ReqId) (accepted : Option (List ℤ)) :
    SameBut s (s.feedback ids accepted) := by
  cases accepted with
  | none => exact SameBut.refl s
  | some v => exact foldl_feedback_same (ids.zip v) s

/-- The feedback pass grades the record of every request with its own feedback. -/
lemma feedback_lookup [F64] (s : HybridMixer) {ids : List ReqId} (hids : ids.Nodup)
    (accepted : Option (List ℤ)) (id : ReqId) :
    (s.feedback ids accepted).previous.lookup id
      = (s.previous.lookup id).map (gradeAt (feedbackOf ids accepted id)) := by
  cases accepted with
  | none =>
    cases h : s.previous.lookup id with
    | none => simp [feedback, h]
    | some p => simp [feedback, feedbackOf, h, gradeAt_of_neg]
  | some v =>
    apply foldl_feedback_lookup
    exact hids.sublist (zip_fst_sublist ids v)

lemma Inv.feedback [F64] {s : HybridMixer} (h : s.Inv) {ids : List ReqId} (hids : ids.Nodup)
    (accepted : Option (List ℤ)) : (s.feedback ids accepted).Inv where
  cache := by
    rw [(feedback_same s ids accepted).cache]
    exact h.cache
  previous := by
    intro id p hp
    rw [feedback_lookup s hids, Option.map_eq_some_iff] at hp
    obtain ⟨q, hq, rfl⟩ := hp
    obtain ⟨_, hn, hl, hh, _⟩ := gradeAt_fields (feedbackOf ids accepted id) q
    obtain ⟨h1, h2, h3⟩ := h.previous id q hq
    rw [(feedback_same s ids accepted).k]
    exact ⟨by omega, by omega, by rw [hh, hn, hl, h3]⟩

/-! ## The departure pass -/

/-- Departures feed the cache with the histories of the departed requests and forget them. -/
lemma run_departRow {s : HybridMixer} (hinv : s.cache.Inv) {ids : List ReqId} (hids : ids.Nodup)
    (htracked : ∀ id ∈ ids, id ∈ s.previous) :
    ∃ cache previous, run departRow s ids = some { s with cache, previous } ∧ cache.Inv ∧
      cache.cfg = s.cache.cfg ∧
      run Cache.add s.cache (ids.map fun id => ((s.previous.lookup id).map (·.context)).getD [])
        = some cache ∧
      ∀ id, previous.lookup id = if id ∈ ids then none else s.previous.lookup id := by
  induction ids generalizing s with
  | nil => exact ⟨s.cache, s.previous, rfl, hinv, rfl, rfl, fun id => by simp⟩
  | cons id ids ih =>
    obtain ⟨hnew, hrest⟩ := List.nodup_cons.mp hids
    obtain ⟨p, hp⟩ := Map.exists_lookup (htracked id (by simp))
    obtain ⟨c1, hadd, hc1, hcfg1⟩ := hinv.add p.context
    have hrow : departRow s id
        = some { s with previous := s.previous.erase id, cache := c1 } := by
      simp [departRow, hp, hadd]
    obtain ⟨cache, previous, hrun, hc, hcfg, hfed, hlookup⟩ :=
      ih (s := { s with previous := s.previous.erase id, cache := c1 }) hc1 hrest (by
        intro id' hid'
        have hne : id' ≠ id := fun h => hnew (h ▸ hid')
        exact AList.mem_erase.mpr ⟨hne, htracked id' (by simp [hid'])⟩)
    refine ⟨cache, previous, by simp [hrow, hrun], hc, hcfg.trans hcfg1, ?_, ?_⟩
    · have hsame : (ids.map fun id' => (((s.previous.erase id).lookup id').map (·.context)).getD [])
          = ids.map fun id' => ((s.previous.lookup id').map (·.context)).getD [] := by
        apply List.map_congr_left
        intro id' hid'
        have hne : id' ≠ id := fun h => hnew (h ▸ hid')
        rw [AList.lookup_erase_ne hne]
      rw [hsame] at hfed
      simpa [hp, hadd] using hfed
    · intro id'
      rw [hlookup, Map.lookup_erase_eq]
      by_cases h : id' = id <;> simp [h]

lemma mem_gone {o : HashOrder ReqId} {s : HybridMixer} {ids : List ReqId} {id : ReqId} :
    id ∈ s.gone o ids ↔ id ∈ s.previous ∧ id ∉ ids := by
  simp [gone, AList.mem_keys]

lemma nodup_gone (o : HashOrder ReqId) (s : HybridMixer) (ids : List ReqId) :
    (s.gone o ids).Nodup :=
  (o.nodup_order.mpr s.previous.keys_nodup).filter _

/-- The histories that the departure pass donates, in its order. -/
def donated (o : HashOrder ReqId) (s : HybridMixer) (ids : List ReqId) : List (List Token) :=
  (s.gone o ids).map fun id => ((s.previous.lookup id).map (·.context)).getD []

/-- The departure pass donates the histories of the requests that are not in the batch. -/
lemma depart_spec {s : HybridMixer} (hinv : s.cache.Inv) (o : HashOrder ReqId) (ids : List ReqId) :
    ∃ cache previous, s.depart o ids = some { s with cache, previous } ∧ cache.Inv ∧
      cache.cfg = s.cache.cfg ∧ run Cache.add s.cache (s.donated o ids) = some cache ∧
      ∀ id, previous.lookup id = if id ∈ ids then s.previous.lookup id else none := by
  obtain ⟨cache, previous, hrun, hc, hcfg, hfed, hlookup⟩ :=
    run_departRow hinv (nodup_gone o s ids) fun id hid => (mem_gone.mp hid).1
  refine ⟨cache, previous, hrun, hc, hcfg, hfed, fun id => ?_⟩
  rw [hlookup]
  by_cases hid : id ∈ ids
  · simp [mem_gone, hid]
  · by_cases hmem : id ∈ s.previous
    · simp [mem_gone, hid, hmem]
    · simp [mem_gone, hid, hmem, AList.lookup_eq_none.mpr hmem]

/-! ## The row loop -/

/-- The row loop, row by row, from row `i` on. -/
inductive Steps [F64] (decide : Decide) (accepted : Option (List ℤ))
    (same : List Token → List Token → Bool) (rows : List (List Token)) :
    ℕ → HybridMixer → List (ReqId × List Token) → List (List Token) → HybridMixer → Prop where
  | nil (i : ℕ) (s : HybridMixer) : Steps decide accepted same rows i s [] [] s
  | cons {i : ℕ} {s t s' : HybridMixer} {id : ReqId} {native draft row : List Token}
      {batch : List (ReqId × List Token)} {drafts : List (List Token)} :
      rows[i]? = some row → s.row decide accepted i id native = some (draft, t) →
      RowStep s same row id native draft t →
      Steps decide accepted same rows (i + 1) t batch drafts s' →
      Steps decide accepted same rows i s ((id, native) :: batch) (draft :: drafts) s'

section steps
variable [F64] {decide : Decide} {accepted : Option (List ℤ)}
  {same : List Token → List Token → Bool} {rows : List (List Token)} {i : ℕ} {s s' : HybridMixer}
  {batch : List (ReqId × List Token)} {drafts : List (List Token)}

/-- The row loop runs through all its rows. -/
lemma rows_steps (hinv : s.cache.Inv) (hd : decide.Compares same rows)
    (hrows : i + batch.length ≤ rows.length)
    (ha : ∀ v, accepted = some v → i + batch.length ≤ v.length) :
    ∃ drafts s', HybridMixer.rows decide accepted i batch s = some (drafts, s') ∧
      Steps decide accepted same rows i s batch drafts s' := by
  induction batch generalizing i s with
  | nil => exact ⟨[], s, rfl, .nil i s⟩
  | cons e batch ih =>
    obtain ⟨id, native⟩ := e
    rw [List.length_cons] at hrows
    have hi : i < rows.length := by omega
    obtain ⟨draft, t, hrow, hstep⟩ := row_spec hinv hd (List.getElem?_eq_getElem hi)
      (show ∀ v, accepted = some v → i < v.length from
        fun v hv => by have := ha v hv; rw [List.length_cons] at this; omega)
      id native
    obtain ⟨drafts, s', hrest, hsteps⟩ := ih (i := i + 1) hstep.cache (by omega) (fun v hv => by
      have := ha v hv
      rw [List.length_cons] at this
      omega)
    exact ⟨draft :: drafts, s', by simp [HybridMixer.rows, hrow, hrest],
      .cons (List.getElem?_eq_getElem hi) hrow hstep hsteps⟩

lemma Steps.rows_eq (h : Steps decide accepted same rows i s batch drafts s') :
    HybridMixer.rows decide accepted i batch s = some (drafts, s') := by
  induction h with
  | nil => rfl
  | cons _ hrow _ _ ih => simp [HybridMixer.rows, hrow, ih]

lemma Steps.length (h : Steps decide accepted same rows i s batch drafts s') :
    drafts.length = batch.length := by
  induction h with
  | nil => rfl
  | cons _ _ _ _ ih => rw [List.length_cons, List.length_cons, ih]

/-- The settings of the mixer stay. -/
lemma Steps.settings (h : Steps decide accepted same rows i s batch drafts s') :
    s'.k = s.k ∧ s'.maxModelLen = s.maxModelLen ∧ s'.env = s.env := by
  induction h with
  | nil => exact ⟨rfl, rfl, rfl⟩
  | cons _ _ hstep _ ih =>
    exact ⟨ih.1.trans hstep.k, ih.2.1.trans hstep.maxModelLen, ih.2.2.trans hstep.env⟩

/-- The native counts are reported row by row. -/
lemma Steps.lastNative (h : Steps decide accepted same rows i s batch drafts s') :
    s'.lastNative = s.lastNative ++ List.zipWith (fun draft e => lcp draft e.2) drafts batch := by
  induction h with
  | nil => simp
  | cons _ _ hstep _ ih => rw [ih, hstep.lastNative, List.zipWith_cons_cons, List.append_assoc]; rfl

/-- A request without a row keeps its record. -/
lemma Steps.lookup_of_notMem (h : Steps decide accepted same rows i s batch drafts s') {id : ReqId}
    (hid : id ∉ batch.map Prod.fst) : s'.previous.lookup id = s.previous.lookup id := by
  induction h with
  | nil => rfl
  | cons _ _ hstep _ ih =>
    rw [List.map_cons, List.mem_cons, not_or] at hid
    obtain ⟨p, hp, _⟩ := hstep.previous
    rw [ih hid.2, hp, Map.lookup_put_ne _ _ hid.1]

/-- The tracked requests after the loop. -/
lemma Steps.mem_previous (h : Steps decide accepted same rows i s batch drafts s') {id : ReqId} :
    id ∈ s'.previous ↔ id ∈ s.previous ∨ id ∈ batch.map Prod.fst := by
  induction h with
  | nil => simp
  | cons _ _ hstep _ ih =>
    obtain ⟨p, hp, _⟩ := hstep.previous
    rw [ih, hp, Map.mem_put, List.map_cons, List.mem_cons]
    tauto

/-- Rows that reset no slot leave the cache as it is. -/
lemma Steps.cache_eq (h : Steps decide accepted same rows i s batch drafts s')
    (hnodup : (batch.map Prod.fst).Nodup)
    (hsame : ∀ (j : ℕ) (id : ReqId) (native row : List Token) (p : Previous),
      batch[j]? = some (id, native) → rows[i + j]? = some row → s.previous.lookup id = some p →
      same p.context row = true) : s'.cache = s.cache := by
  induction h with
  | nil => rfl
  | @cons i s t s' id native draft row batch drafts hrow _ hstep _ ih =>
    rw [List.map_cons, List.nodup_cons] at hnodup
    obtain ⟨q, hq, _⟩ := hstep.previous
    have hfirst : t.cache = s.cache :=
      hstep.cache_eq fun p hp => hsame 0 id native row p rfl hrow hp
    rw [← hfirst]
    apply ih hnodup.2
    intro j id' native' row' p hj hrow' hp
    have hne : id' ≠ id := by
      have hmem : id' ∈ batch.map Prod.fst := List.mem_map_of_mem (List.mem_of_getElem? hj)
      exact fun heq => hnodup.1 (heq ▸ hmem)
    rw [hq, Map.lookup_put_ne _ _ hne] at hp
    exact hsame (j + 1) id' native' row' p hj (by rw [← hrow']; congr 1; omega) hp

/-- The row loop keeps the invariant. -/
lemma Steps.inv (h : Steps decide accepted same rows i s batch drafts s') (hinv : s.Inv) :
    s'.Inv := by
  induction h with
  | nil => exact hinv
  | cons _ _ hstep _ ih =>
    apply ih
    obtain ⟨p, hp, hprop, _⟩ := hstep.previous
    refine ⟨hstep.cache, fun id q hq => ?_⟩
    rw [hstep.k]
    rw [hp, Map.lookup_put] at hq
    split at hq
    · rw [← Option.some.inj hq]
      exact hprop.wf (hstep.length_le.trans (rowCap_le_k _ _ _))
    · exact hinv.previous id q hq

/-- The loop at row `j`: the states before and after the row, and what the loop leaves of it. -/
theorem Steps.get (h : Steps decide accepted same rows i s batch drafts s')
    (hnodup : (batch.map Prod.fst).Nodup) {j : ℕ} {id : ReqId} {native : List Token}
    (hj : batch[j]? = some (id, native)) :
    ∃ row draft t t', rows[i + j]? = some row ∧ drafts[j]? = some draft ∧
      Steps decide accepted same rows i s (batch.take j) (drafts.take j) t ∧
      t.row decide accepted (i + j) id native = some (draft, t') ∧
      RowStep t same row id native draft t' ∧
      t.previous.lookup id = s.previous.lookup id ∧
      s'.previous.lookup id = t'.previous.lookup id := by
  induction h generalizing j with
  | nil => simp at hj
  | @cons i s t s' id' native' draft row batch drafts hrow hrun hstep hrest ih =>
    rw [List.map_cons, List.nodup_cons] at hnodup
    cases j with
    | zero =>
      obtain ⟨rfl, rfl⟩ : id' = id ∧ native' = native := by simpa using hj
      exact ⟨row, draft, s, t, hrow, rfl, .nil i s, hrun, hstep, rfl,
        hrest.lookup_of_notMem hnodup.1⟩
    | succ j =>
      rw [List.getElem?_cons_succ] at hj
      obtain ⟨row', draft', u, u', h1, h2, h3, h4, h5, h6, h7⟩ := ih hnodup.2 hj
      have hmem : id ∈ batch.map Prod.fst := List.mem_map_of_mem (List.mem_of_getElem? hj)
      have hne : id ≠ id' := fun heq => hnodup.1 (heq ▸ hmem)
      obtain ⟨p, hp, _⟩ := hstep.previous
      have hidx : i + 1 + j = i + (j + 1) := by omega
      rw [hidx] at h1 h4
      exact ⟨row', draft', u, u', h1, by simpa using h2, .cons hrow hrun hstep h3, h4, h5,
        by rw [h6, hp, Map.lookup_put_ne _ _ hne], h7⟩

end steps

/-! ## The call -/

/-- The arguments that `validate` and the row checks let through. -/
structure Admissible (s : HybridMixer) (ids : List ReqId) (natives : List (List Token))
    (accepted : Option (List ℤ)) (rows : List (List Token)) : Prop where
  nodup : ids.Nodup
  natives_length : natives.length = ids.length
  accepted_length : ∀ v, accepted = some v → v.length = ids.length
  rows_length : ids.length ≤ rows.length
  native_le : ∀ d ∈ natives, d.length ≤ s.k
  row_le : ∀ row ∈ rows, row.length ≤ s.maxModelLen
  feedback : ∀ v, accepted = some v → ∀ id a, (id, a) ∈ ids.zip v →
    -1 ≤ a ∧ ∀ p, s.previous.lookup id = some p → a ≤ p.length

/-- The state in which the row loop of a call starts. -/
def start [F64] (o : HashOrder ReqId) (s : HybridMixer) (ids : List ReqId)
    (accepted : Option (List ℤ)) : Option HybridMixer :=
  ((s.feedback ids accepted).depart o ids).map fun s => { s with lastNative := [] }

/-- The two passes before the row loop. -/
lemma start_spec [F64] {s : HybridMixer} (h : s.Inv) (o : HashOrder ReqId) {ids : List ReqId}
    (hids : ids.Nodup) (accepted : Option (List ℤ)) :
    ∃ s0, s.start o ids accepted = some s0 ∧ s0.Inv ∧ s0.k = s.k ∧
      s0.maxModelLen = s.maxModelLen ∧ s0.env = s.env ∧ s0.lastNative = [] ∧
      run Cache.add s.cache ((s.feedback ids accepted).donated o ids) = some s0.cache ∧
      ∀ id, s0.previous.lookup id = if id ∈ ids then
        (s.previous.lookup id).map (gradeAt (feedbackOf ids accepted id)) else none := by
  have hf := h.feedback hids accepted
  have hsame := feedback_same s ids accepted
  obtain ⟨cache, previous, hdep, hc, _, hfed, hlookup⟩ := depart_spec hf.cache o ids
  have hstart : s.start o ids accepted
      = some { s.feedback ids accepted with cache, previous, lastNative := [] } := by
    rw [start, hdep]
    rfl
  refine ⟨_, hstart, ?_, hsame.k, hsame.maxModelLen, hsame.env, rfl, ?_, ?_⟩
  · refine ⟨hc, fun id p hp => ?_⟩
    dsimp only at hp ⊢
    rw [hlookup] at hp
    split at hp
    · exact hf.previous id p hp
    · simp at hp
  · rw [← hsame.cache]
    exact hfed
  · intro id
    dsimp only
    rw [hlookup, feedback_lookup s hids]

/-- An admissible call runs the row loop to its end. -/
theorem mixCore_spec [F64] {s : HybridMixer} (h : s.Inv) (o : HashOrder ReqId) {ids : List ReqId}
    {natives : List (List Token)} {accepted : Option (List ℤ)} {rows : List (List Token)}
    (hargs : s.Admissible ids natives accepted rows) {decide : Decide}
    {same : List Token → List Token → Bool} (hd : decide.Compares same rows) :
    ∃ s0 drafts s1, s.start o ids accepted = some s0 ∧
      s.mixCore o ids natives accepted decide = some (drafts, { s1 with calls := s1.calls + 1 }) ∧
      Steps decide accepted same rows 0 s0 (ids.zip natives) drafts s1 := by
  obtain ⟨s0, hstart, hinv0, _⟩ := start_spec h o hargs.nodup accepted
  have hlen : (ids.zip natives).length = ids.length := by
    rw [List.length_zip, hargs.natives_length, Nat.min_self]
  obtain ⟨drafts, s1, hrows, hsteps⟩ := rows_steps hinv0.cache hd
    (show 0 + (ids.zip natives).length ≤ rows.length by have := hargs.rows_length; omega)
    (fun v hv => by have := hargs.accepted_length v hv; omega)
  refine ⟨s0, drafts, s1, hstart, ?_, hsteps⟩
  obtain ⟨s2, hdep, rfl⟩ := Option.map_eq_some_iff.mp hstart
  simp [mixCore, hdep, hrows]

end HybridMixer
end SuffixHybrid
