import SuffixHybrid.Mixer.Contract

/-!
# Echoed rows

A row echoes when it publishes its native draft, cut to the cap, and reports all of it as native. A
legacy row echoes unless the tail of its lookup differs from the native tokens of the slots that it
fills (`Repeats`); a diverge row echoes unless its candidate overrules the native draft. That the
cache is empty before the call decides neither: the call feeds it before and between its rows, and a
diverge row also looks up its own context. `echo_iff` is the exact condition, and a legacy call that
feeds nothing echoes.
-/

namespace SuffixHybrid
open Lib

namespace HybridMixer

/-- The first slot that the tail of a legacy row fills. -/
def tailStart (gate : Option ℚ) (kept : ℕ) : ℕ := if gateOpen gate then kept - 1 else kept

lemma tailStart_le (gate : Option ℚ) (kept : ℕ) : tailStart gate kept ≤ kept := by
  unfold tailStart
  split <;> omega

/-- A spliced draft is native up to the start of the tail. -/
lemma spliced_eq {native tail : List Token} {cap kept : ℕ} (gate : Option ℚ) (hle : kept ≤ cap)
    (hcap : cap ≤ native.length) :
    spliced native tail cap kept gate
      = native.take (tailStart gate kept) ++ tail.take (cap - tailStart gate kept) := by
  unfold spliced tailStart
  split
  · rw [List.take_append, List.take_take, List.length_take_of_le (by omega),
      Nat.min_eq_right (by omega)]
  · rfl

/-- The tail repeats the native tokens of the slots it fills. -/
def Repeats (native tail : List Token) (cap kept : ℕ) (gate : Option ℚ) : Prop :=
  tail.take (cap - tailStart gate kept) = (native.take cap).drop (tailStart gate kept)

lemma spliced_eq_take_iff {native tail : List Token} {cap kept : ℕ} (gate : Option ℚ)
    (hle : kept ≤ cap) (hcap : cap ≤ native.length) :
    spliced native tail cap kept gate = native.take cap ↔ Repeats native tail cap kept gate := by
  have hstart := (tailStart_le gate kept).trans hle
  have hsplit : native.take cap
      = native.take (tailStart gate kept) ++ (native.take cap).drop (tailStart gate kept) := by
    conv_lhs => rw [← List.take_append_drop (tailStart gate kept) (native.take cap)]
    rw [List.take_take, Nat.min_eq_left hstart]
  rw [spliced_eq gate hle hcap, Repeats]
  constructor
  · intro h
    rw [hsplit] at h
    exact List.append_cancel_left h
  · intro h
    rw [h, ← hsplit]

/-- A legacy row echoes: it does not continue its request, or its lookup finds nothing, or the tail
repeats the native draft. -/
def LegacyEchoes [F64] (t : HybridMixer) (same : List Token → List Token → Bool)
    (row : List Token) (id : ReqId) (native : List Token) : Prop :=
  let slot := t.previous.lookup id
  let cap := t.rowCap row.length native
  let kept := t.rowKept same row slot t.cache cap
  continues same row slot = true → ∀ tail score m,
    t.cache.speculate (contextAfter same row slot ++ (native.take (kept - 1))) cap
      = some (tail, score, m) →
    tail = [] ∨ Repeats native tail cap kept (slot.bind (·.suffixEstimate))

/-- A diverge row echoes: its candidate does not overrule the native draft. -/
def DivergeEchoes [F64] (t : HybridMixer) (same : List Token → List Token → Bool)
    (row : List Token) (id : ReqId) (native : List Token) (accepted : ℤ) : Prop :=
  let slot := t.previous.lookup id
  let row' := classified same row (slot.map (·.context))
  ∀ opened p cand matched selfLookup,
    t.openRow row'.1 slot row'.2 accepted = some (opened, p) →
    opened.candidate (contextAfter same row slot) (t.rowCap row.length native)
      = some (cand, matched, selfLookup) →
    ¬ opened.Overrules cand native (divBucket selfLookup matched)

/-- The condition under which a row echoes, on the mixer before the row. -/
def Echoes [F64] (t : HybridMixer) (same : List Token → List Token → Bool) (row : List Token)
    (id : ReqId) (native : List Token) (accepted : ℤ) : Prop :=
  if t.env.diverge then DivergeEchoes t same row id native accepted
  else LegacyEchoes t same row id native

/-- A draft that is the whole native draft has all of it as its native prefix. -/
lemma lcp_of_eq_take {draft native : List Token} {cap : ℕ} (hcap : cap ≤ native.length)
    (h : draft = native.take cap) : lcp draft native = cap := by
  rw [h, lcp_take hcap]

lemma LegacyRow.echoes_iff [F64] {t t' : HybridMixer} {same : List Token → List Token → Bool}
    {row native tail draft : List Token} {id : ReqId} {cache : Cache}
    (h : LegacyRow t same row id native cache tail draft t') :
    draft = native.take (t.rowCap row.length native) ↔ LegacyEchoes t same row id native := by
  have hcap := rowCap_le_length t row.length native
  obtain ⟨score, m, hlookup⟩ := h.lookup
  have hdraft := h.draft_eq
  unfold legacyDraft at hdraft
  simp only [LegacyEchoes]
  by_cases hcont : continues same row (t.previous.lookup id) = true
  · have hcache : cache = t.cache := h.cache_eq fun p hp => by
      simpa [continues, hp] using hcont
    rw [hcache] at hlookup hdraft
    constructor
    · intro heq _ tail' score' m' hlookup'
      rw [hlookup] at hlookup'
      cases hlookup'
      by_cases hnil : tail = []
      · exact Or.inl hnil
      · right
        rw [if_neg (by simp [hcont, hnil]), heq] at hdraft
        exact (spliced_eq_take_iff _ (keptPrefix_le _ _ _) hcap).mp hdraft.symm
    · intro hechoes
      rw [hdraft]
      split
      · rfl
      · rename_i hne
        have hrep := (hechoes hcont tail score m hlookup).resolve_left fun hnil =>
          hne (Or.inr hnil)
        exact (spliced_eq_take_iff _ (keptPrefix_le _ _ _) hcap).mpr hrep
  · have hfalse : continues same row (t.previous.lookup id) = false := by simpa using hcont
    rw [if_pos (Or.inl hfalse)] at hdraft
    exact ⟨fun _ h => absurd h hcont, fun _ => hdraft⟩

lemma DivergeRow.echoes_iff [F64] {t opened t' : HybridMixer}
    {same : List Token → List Token → Bool} {row native cand draft : List Token} {id : ReqId}
    {accepted : ℤ} {bucket : Fin divBuckets}
    (h : DivergeRow t same row id native accepted opened cand bucket draft t') :
    draft = native.take (t.rowCap row.length native) ↔
      DivergeEchoes t same row id native accepted := by
  have hcap := rowCap_le_length t row.length native
  obtain ⟨p, hopen⟩ := h.opens
  obtain ⟨matched, selfLookup, hcand, rfl⟩ := h.lookup
  have hlcp := lcp_overlaid (s := opened) cand (divBucket selfLookup matched) hcap
  rw [← h.draft_eq] at hlcp
  have hiff : draft = native.take (t.rowCap row.length native) ↔
      ¬ opened.Overrules cand native (divBucket selfLookup matched) := by
    constructor
    · intro heq hover
      have hlen := h.cand_length
      rw [if_pos hover, lcp_of_eq_take hcap heq] at hlcp
      have hlt := hover.1
      omega
    · intro hnot
      rw [h.draft_eq, overlaid, if_neg hnot]
  rw [hiff]
  constructor
  · intro hnot opened' p' cand' matched' selfLookup' hopen' hcand'
    rw [hopen] at hopen'
    cases hopen'
    rw [hcand] at hcand'
    cases hcand'
    exact hnot
  · intro hechoes
    exact hechoes opened p cand matched selfLookup hopen hcand

lemma CallRow.echoes_iff [F64] {s t s' : HybridMixer} {ids : List ReqId} {src : Source}
    {accepted : Option (List ℤ)} {i : ℕ} {id : ReqId} {row native draft : List Token}
    (h : CallRow s ids src accepted i id row native draft t s')
    (hc : (src.classifier ids.length).Compares src.same (src.rows ids.length))
    (hrow : (src.rows ids.length)[i]? = some row) (ha : ∀ v, accepted = some v → i < v.length) :
    draft = native.take (s.rowCap row.length native) ↔
      t.Echoes src.same row id native (feedbackAt accepted i) := by
  have hcap : t.rowCap row.length native = s.rowCap row.length native := by
    rw [rowCap, rowCap, h.k, h.maxModelLen]
  rw [← hcap, Echoes]
  cases hdiv : s.env.diverge with
  | true =>
    obtain ⟨opened, cand, bucket, t', hspec⟩ := h.diverge hc hrow hdiv ha
    rw [if_pos (by rw [h.env, hdiv])]
    exact hspec.echoes_iff
  | false =>
    obtain ⟨cache, tail, t', _, hspec⟩ := h.legacy hc hrow hdiv
    rw [if_neg (by rw [h.env, hdiv]; simp)]
    exact hspec.echoes_iff

/-- After an empty cache every row of an accepted call echoes exactly if each meets its condition on
the mixer before it; a legacy call that neither drops nor resets a tracked request echoes. -/
theorem echo_iff [F64] {s s' : HybridMixer} (hs : Reachable s) (hempty : s.cacheTokens = 0)
    {o : HashOrder ReqId} {ids : List ReqId} {src : Source} {natives drafts : List (List Token)}
    {accepted : Option (List ℤ)}
    (hcall : s.call o ids src natives accepted = some (.ok drafts, s')) :
    ((∀ (i : ℕ) (row native : List Token), i < ids.length → (src.rows ids.length)[i]? = some row →
        natives[i]? = some native →
        drafts[i]? = some (native.take (s.rowCap row.length native)) ∧
          s'.lastNative[i]? = some (s.rowCap row.length native)) ↔
      ∀ (i : ℕ) (id : ReqId) (row native : List Token) (t : HybridMixer), ids[i]? = some id →
        (src.rows ids.length)[i]? = some row → natives[i]? = some native →
        s.before o ids src natives accepted i = some t →
        t.Echoes src.same row id native (feedbackAt accepted i)) ∧
    (s.env.diverge = false → s.Quiet ids src →
      ∀ (i : ℕ) (row native : List Token), i < ids.length → (src.rows ids.length)[i]? = some row →
        natives[i]? = some native →
        drafts[i]? = some (native.take (s.rowCap row.length native)) ∧
          s'.lastNative[i]? = some (s.rowCap row.length native)) := by
  obtain ⟨hacc, _, _, _, hrows⟩ := call_ok_spec hs.inv hcall
  have ha (i : ℕ) (hi : i < ids.length) : ∀ v, accepted = some v → i < v.length := fun v hv => by
    rw [hacc.args.accepted_length v hv]
    exact hi
  have hreport {i : ℕ} {id : ReqId} {row native draft : List Token} {t : HybridMixer}
      (hrow : CallRow s ids src accepted i id row native draft t s')
      (hdraft : drafts[i]? = some draft) (heq : draft = native.take (s.rowCap row.length native)) :
      drafts[i]? = some (native.take (s.rowCap row.length native)) ∧
        s'.lastNative[i]? = some (s.rowCap row.length native) :=
    ⟨hdraft.trans (congrArg some heq), by
      rw [hrow.lastNative, lcp_of_eq_take (rowCap_le_length _ _ _) heq]⟩
  refine ⟨⟨?_, ?_⟩, ?_⟩
  · intro hall i id row native t hid hrow hnative hbefore
    have hi := (List.getElem?_eq_some_iff.mp hid).1
    obtain ⟨draft, t1, hdraft, hbefore', hcallRow⟩ := hrows i id native row hid hnative hrow
    rw [hbefore] at hbefore'
    cases hbefore'
    have heq := (hall i row native hi hrow hnative).1
    rw [hdraft] at heq
    exact (hcallRow.echoes_iff hacc.compares hrow (ha i hi)).mp (Option.some.inj heq)
  · intro hall i row native hi hrow hnative
    have hid := List.getElem?_eq_getElem hi
    obtain ⟨draft, t, hdraft, hbefore, hcallRow⟩ := hrows i _ native row hid hnative hrow
    have hechoes := hall i _ row native t hid hrow hnative hbefore
    exact hreport hcallRow hdraft
      ((hcallRow.echoes_iff hacc.compares hrow (ha i hi)).mpr hechoes)
  · intro hdiv hquiet i row native hi hrow hnative
    have hid := List.getElem?_eq_getElem hi
    obtain ⟨draft, t, hdraft, hbefore, hcallRow⟩ := hrows i _ native row hid hnative hrow
    refine hreport hcallRow hdraft
      ((hcallRow.echoes_iff hacc.compares hrow (ha i hi)).mpr ?_)
    rw [Echoes, if_neg (by rw [hcallRow.env, hdiv]; simp)]
    -- the cache is still empty before the row, so its lookup finds nothing
    intro _ tail score m hlookup
    have hcache := hcallRow.quiet hquiet
    rw [hcallRow.inv.cache.speculate_of_tokens_eq_zero (by rw [hcache]; exact hempty)] at hlookup
    cases hlookup
    exact Or.inl rfl

/-- The first call on a new mixer echoes. -/
theorem echo_iff_first :
    ∃ s s' : HybridMixer, Reachable s ∧ s.cacheTokens = 0 ∧
      s.call (HashOrder.stored ReqId) ["a"] (.lists [[1, 2]]) [[7, 9]] none
        = some (.ok [[7, 9]], s') ∧ s'.lastNative[0]? = some 2 := by
  obtain ⟨s, s', hs, hcall, hview⟩ := Reachable.exists_call (Config.ofN 1 (by decide)) {} 2 100
    (by decide) (by decide) [] (HashOrder.stored ReqId) ["a"] (.lists [[1, 2]]) [[7, 9]] none [[7, 9]]
    (fun s _ => (s.cacheTokens, s.env.diverge, s.rowCap 2 [7, 9], s.previous.keys.length))
    (0, false, 2, 0) (by decide)
  simp only [Prod.mk.injEq] at hview
  obtain ⟨hempty, hdiv, hcap, hkeys⟩ := hview
  have hquiet : s.Quiet ["a"] (.lists [[1, 2]]) := by
    intro id p hp
    have hmem := AList.mem_keys.mp (Map.mem_of_lookup hp)
    rw [List.length_eq_zero_iff.mp hkeys] at hmem
    simp at hmem
  have hrow := (echo_iff hs hempty hcall).2 hdiv hquiet 0 [1, 2] [7, 9] (by decide) rfl rfl
  exact ⟨s, s', hs, hempty, hcall, hrow.2.trans (congrArg some hcap)⟩

/-- An empty cache does not make a call echo: a request that departs in the call feeds the cache
before the rows, and a diverge row finds a repetition in its own context. -/
theorem empty_cache_published :
    (∃ s s' : HybridMixer, Reachable s ∧
      s.call (HashOrder.stored ReqId) ["a"] (.lists [[1, 2]]) [[7, 9]] none
        = some (.ok [[7, 8]], s') ∧ s.cacheTokens = 0 ∧ s.rowCap 2 [7, 9] = 2) ∧
    ∃ s s' : HybridMixer, Reachable s ∧
      s.call (HashOrder.stored ReqId) ["a"] (.lists [[1, 2, 3, 4, 5, 6, 1, 2, 3, 4]]) [[9, 9]] none
        = some (.ok [[5, 6]], s') ∧ s.cacheTokens = 0 ∧ s.rowCap 10 [9, 9] = 2 := by
  constructor
  · obtain ⟨s, s', hs, hcall, hview⟩ := Reachable.exists_call (Config.ofN 1 (by decide)) {} 2 100
      (by decide) (by decide)
      [.call (HashOrder.stored ReqId) ["a", "b"] (.lists [[1], [1, 2, 7, 8]]) [[5, 5], [5, 5]] none]
      (HashOrder.stored ReqId) ["a"] (.lists [[1, 2]]) [[7, 9]] none [[7, 8]]
      (fun s _ => (s.cacheTokens, s.rowCap 2 [7, 9])) (0, 2) (by with_unfolding_all decide)
    exact ⟨s, s', hs, hcall, congrArg Prod.fst hview, congrArg Prod.snd hview⟩
  · obtain ⟨s, s', hs, hcall, hview⟩ := Reachable.exists_call (Config.ofN 1 (by decide))
      { diverge := true, divThreshold := 1 / 4 } 2 100 (by decide) (by decide) []
      (HashOrder.stored ReqId) ["a"] (.lists [[1, 2, 3, 4, 5, 6, 1, 2, 3, 4]]) [[9, 9]] none [[5, 6]]
      (fun s _ => (s.cacheTokens, s.rowCap 10 [9, 9])) (0, 2) (by with_unfolding_all decide)
    exact ⟨s, s', hs, hcall, congrArg Prod.fst hview, congrArg Prod.snd hview⟩

end HybridMixer
end SuffixHybrid
