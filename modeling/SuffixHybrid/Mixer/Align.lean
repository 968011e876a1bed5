import SuffixHybrid.Mixer.Echo

/-!
# Alignment of the published tail

The lookup of a legacy row ends before the last kept native token, so token `k` of its tail belongs
into slot `kept - 1 + k` (`Aligned`). A tail that replaces the last kept token is placed there. A
tail that only extends the kept prefix is placed one slot further on (`Misplaces`):
`slots_aligned_iff` says that a row is aligned except where that is seen.
-/

namespace SuffixHybrid
open Lib

namespace HybridMixer

/-- Every published slot that is not native holds the tail token of its position. -/
def Aligned (native tail draft : List Token) (kept : ℕ) : Prop :=
  ∀ (j : ℕ) (tok : Token), kept - 1 ≤ j → draft[j]? = some tok → native[j]? ≠ some tok →
    tail[j - (kept - 1)]? = some tok

/-- The tail extends a shortened native draft, and its first token is neither the native token of the
slot it lands in nor the tail token that belongs there. -/
def Misplaces (native tail : List Token) (cap kept : ℕ) (gate : Option ℚ) : Prop :=
  gateOpen gate = false ∧ kept < cap ∧ tail[0]? ≠ native[kept]? ∧ tail[0]? ≠ tail[1]?

lemma aligned_take (native tail : List Token) (cap kept : ℕ) :
    Aligned native tail (native.take cap) kept := by
  intro j tok _ hj hne
  exact absurd (getElem?_of_take hj) hne

/-- A tail that starts at the last kept token is aligned. -/
lemma aligned_of_gateOpen {native tail : List Token} {cap kept : ℕ} {gate : Option ℚ}
    (hopen : gateOpen gate = true) (hle : kept ≤ cap) (hcap : cap ≤ native.length) :
    Aligned native tail (spliced native tail cap kept gate) kept := by
  intro j tok hj hdraft _
  rw [spliced_eq gate hle hcap, tailStart, if_pos hopen, List.getElem?_append_right (by simp; omega),
    List.length_take_of_le (by omega)] at hdraft
  exact getElem?_of_take hdraft

/-- A tail that extends the kept prefix is aligned unless it is misplaced. -/
lemma aligned_iff_of_gateClosed {native tail : List Token} {cap kept : ℕ} {gate : Option ℚ}
    (hclosed : gateOpen gate = false) (hle : kept ≤ cap) (hge : cap ≤ kept + 1) (hpos : 0 < kept)
    (hcap : cap ≤ native.length) :
    Aligned native tail (spliced native tail cap kept gate) kept ↔
      ¬ Misplaces native tail cap kept gate := by
  have hlen : (native.take kept).length = kept := List.length_take_of_le (by omega)
  have hstart : tailStart gate kept = kept := by simp [tailStart, hclosed]
  have hshift : kept - (kept - 1) = 1 := by omega
  rw [spliced_eq gate hle hcap, hstart]
  constructor
  · rintro haligned ⟨_, hlt, hnative, htail⟩
    cases h0 : tail[0]? with
    | none =>
      -- an empty tail is not misplaced
      rw [List.getElem?_eq_none_iff] at h0
      exact htail (by rw [List.getElem?_eq_none h0, List.getElem?_eq_none (by omega)])
    | some tok =>
      have hslot : (native.take kept ++ tail.take (cap - kept))[kept]? = some tok := by
        rw [List.getElem?_append_right hlen.le, hlen, Nat.sub_self, show cap - kept = 1 by omega,
          List.getElem?_take_of_lt Nat.zero_lt_one, h0]
      have hmoved := haligned kept tok (by omega) hslot (fun h => hnative (h0.trans h.symm))
      rw [hshift] at hmoved
      exact htail (h0.trans hmoved.symm)
  · intro hnot j tok hj hdraft hne
    rcases Nat.lt_or_ge j kept with hlt | hge'
    · rw [List.getElem?_append_left (by omega)] at hdraft
      exact absurd (getElem?_of_take hdraft) hne
    · rw [List.getElem?_append_right (by omega), hlen, List.getElem?_take] at hdraft
      split at hdraft
      · obtain rfl : j = kept := by omega
        rw [Nat.sub_self] at hdraft
        rw [hshift]
        by_contra hother
        exact hnot ⟨hclosed, by omega, fun h => hne (h ▸ hdraft),
          fun h => hother (h ▸ hdraft)⟩
      · exact absurd hdraft (by simp)

/-- A legacy row is aligned unless it continues its request with a misplaced tail. -/
lemma LegacyRow.aligned_iff [F64] {t t' : HybridMixer} {same : List Token → List Token → Bool}
    {row native tail draft : List Token} {id : ReqId} {cache : Cache}
    (h : LegacyRow t same row id native cache tail draft t') :
    Aligned native tail draft
        (t.rowKept same row (t.previous.lookup id) cache (t.rowCap row.length native)) ↔
      ¬ (continues same row (t.previous.lookup id) = true ∧
        Misplaces native tail (t.rowCap row.length native)
          (t.rowKept same row (t.previous.lookup id) cache (t.rowCap row.length native))
          ((t.previous.lookup id).bind (·.suffixEstimate))) := by
  have hcap := rowCap_le_length t row.length native
  have hdraft := h.draft_eq
  generalize hkept : t.rowKept same row (t.previous.lookup id) cache (t.rowCap row.length native)
    = kept at hdraft ⊢
  have hle : kept ≤ t.rowCap row.length native := hkept ▸ keptPrefix_le _ _ _
  have hge : t.rowCap row.length native - 1 ≤ kept := hkept ▸ keptPrefix_ge _ _ _
  unfold legacyDraft at hdraft
  split at hdraft
  case isTrue hnative =>
    rw [hdraft]
    refine ⟨fun _ hmis => ?_, fun _ => aligned_take _ _ _ _⟩
    rcases hnative with hfalse | hnil
    · rw [hfalse] at hmis
      exact absurd hmis.1 (by simp)
    · exact hmis.2.2.2.2 (by simp [hnil])
  case isFalse hne =>
    obtain ⟨hcont, htail⟩ := not_or.mp hne
    have hpos : 0 < kept := by
      rcases Nat.eq_zero_or_pos (t.rowCap row.length native) with h0 | h0
      · -- with no room the lookup returns nothing
        obtain ⟨score, m, hlookup⟩ := h.lookup
        simp only [Cache.speculate, sliceFrom_sub, Option.bind_eq_bind, Option.bind_some, h0,
          true_or, if_true, Option.some.injEq, Prod.mk.injEq] at hlookup
        exact absurd hlookup.1.symm htail
      · exact hkept ▸ keptPrefix_pos h0
    rw [hdraft]
    cases hgate : gateOpen ((t.previous.lookup id).bind (·.suffixEstimate)) with
    | true =>
      refine ⟨fun _ hmis => ?_, fun _ => aligned_of_gateOpen hgate hle hcap⟩
      have hclosed := hmis.2.1
      rw [hgate] at hclosed
      cases hclosed
    | false =>
      rw [aligned_iff_of_gateClosed hgate hle (by omega) hpos hcap]
      have hcont' : continues same row (t.previous.lookup id) = true := by simpa using hcont
      simp [hcont']

/-- In a legacy call every row publishes an aligned tail, unless it extends a shortened native draft
with a misplaced one. -/
theorem slots_aligned_iff [F64] {s s' : HybridMixer} (hs : Reachable s)
    (hlegacy : s.env.diverge = false) {o : HashOrder ReqId} {ids : List ReqId} {src : Source}
    {natives drafts : List (List Token)} {accepted : Option (List ℤ)}
    (hcall : s.call o ids src natives accepted = some (.ok drafts, s')) {i : ℕ} {id : ReqId}
    {native row : List Token} (hid : ids[i]? = some id) (hnative : natives[i]? = some native)
    (hrow : (src.rows ids.length)[i]? = some row) :
    ∃ draft t cache slot p kept tail score m, drafts[i]? = some draft ∧
      s.before o ids src natives accepted i = some t ∧
      t.takeReset (classified src.same row ((t.previous.lookup id).map (·.context))).1
        (t.previous.lookup id) = some (cache, slot) ∧
      s'.previous.lookup id = some p ∧
      kept = t.rowKept src.same row (t.previous.lookup id) cache (s.rowCap row.length native) ∧
      cache.speculate (p.context ++ (native.take (kept - 1))) (s.rowCap row.length native)
        = some (tail, score, m) ∧
      (Aligned native tail draft kept ↔
        ¬ (continues src.same row (t.previous.lookup id) = true ∧
          Misplaces native tail (s.rowCap row.length native) kept
            ((t.previous.lookup id).bind (·.suffixEstimate)))) := by
  obtain ⟨hacc, _, _, _, hrows⟩ := call_ok_spec hs.inv hcall
  obtain ⟨draft, t, hdraft, hbefore, hcallRow⟩ := hrows i id native row hid hnative hrow
  obtain ⟨cache, tail, t', _, hspec⟩ := hcallRow.legacy hacc.compares hrow hlegacy
  obtain ⟨slot, hreset⟩ := hspec.reset
  obtain ⟨score, m, hlookup⟩ := hspec.lookup
  obtain ⟨t1, _, hstep, hafter⟩ := hcallRow.step
  obtain ⟨p, hp, hprop, _⟩ := hstep.previous
  have hcap : t.rowCap row.length native = s.rowCap row.length native := by
    rw [rowCap, rowCap, hcallRow.k, hcallRow.maxModelLen]
  have haligned := hspec.aligned_iff
  rw [hcap] at hlookup haligned
  refine ⟨draft, t, cache, slot, p, _, tail, score, m, hdraft, hbefore, hreset, ?_, rfl, ?_,
    haligned⟩
  · rw [hafter, hp, Map.lookup_put_self]
  · rw [hprop.context]
    exact hlookup

/-- The second proposal of a request publishes the tail of a cached sequence, in its place. -/
theorem slots_aligned_iff_tail :
    ∃ (s s' t : HybridMixer) (kept : ℕ) (tail : List Token), Reachable s ∧
      s.call (HashOrder.stored ReqId) ["a"] (.lists [[1, 2, 3]]) [[4, 5, 9]] (some [0])
        = some (.ok [[4, 5, 6]], s') ∧
      (Aligned [4, 5, 9] tail [4, 5, 6] kept ↔
        ¬ (continues startsWith [1, 2, 3] (t.previous.lookup "a") = true ∧
          Misplaces [4, 5, 9] tail (s.rowCap 3 [4, 5, 9]) kept
            ((t.previous.lookup "a").bind (·.suffixEstimate)))) := by
  obtain ⟨s, s', hs, hcall, hdiv⟩ := Reachable.exists_call (Config.ofN 1 (by decide)) {} 3 100
    (by decide) (by decide) tailOps (HashOrder.stored ReqId) ["a"] (.lists [[1, 2, 3]]) [[4, 5, 9]]
    (some [0]) [[4, 5, 6]] (fun s _ => s.env.diverge) false (by with_unfolding_all decide)
  obtain ⟨draft, t, _, _, _, kept, tail, _, _, hdraft, _, _, _, _, _, haligned⟩ :=
    slots_aligned_iff hs hdiv hcall (i := 0) rfl rfl rfl
  obtain rfl : [4, 5, 6] = draft := Option.some.inj hdraft
  exact ⟨s, s', t, kept, tail, hs, hcall, haligned⟩

/-- A row whose tail was rejected once: its gate is closed and its budget is below the cap. -/
def closedGateOps : List Op :=
  [.addSequence [1, 2, 3, 4, 5, 6, 7, 8],
    .call (HashOrder.stored ReqId) ["a"] (.lists [[1, 2]]) [[9, 9, 9]] none,
    .call (HashOrder.stored ReqId) ["a"] (.lists [[1, 2, 3]]) [[4, 5, 9]] (some [0])]

/-- After `[1, 2, 3, 4, 5]` and the native token `6` the cache continues with `[7, 8]`. The row keeps
`[6, 9]` and puts `7` behind it, in the slot of `8`. -/
theorem closed_gate_misplaces :
    ∃ s s' t : HybridMixer, Reachable s ∧ s.env.diverge = false ∧
      s.call (HashOrder.stored ReqId) ["a"] (.lists [[1, 2, 3, 4, 5]]) [[6, 9, 9]] (some [1])
        = some (.ok [[6, 9, 7]], s') ∧
      s.before (HashOrder.stored ReqId) ["a"] (.lists [[1, 2, 3, 4, 5]]) [[6, 9, 9]] (some [1]) 0
        = some t ∧
      t.rowKept startsWith [1, 2, 3, 4, 5] (t.previous.lookup "a") t.cache (t.rowCap 5 [6, 9, 9]) = 2 ∧
      (∃ score m, t.cache.speculate ([1, 2, 3, 4, 5] ++ [6]) 3 = some ([7, 8], score, m)) ∧
      ¬ Aligned [6, 9, 9] [7, 8] [6, 9, 7] 2 := by
  obtain ⟨s, s', hs, hcall, hview⟩ := Reachable.exists_call (Config.ofN 1 (by decide)) {} 3 100
    (by decide) (by decide) closedGateOps (HashOrder.stored ReqId) ["a"] (.lists [[1, 2, 3, 4, 5]])
    [[6, 9, 9]] (some [1]) [[6, 9, 7]] (fun s _ => (s.before (HashOrder.stored ReqId) ["a"] (.lists [[1, 2, 3, 4, 5]]) [[6, 9, 9]]
      (some [1]) 0).bind fun t => (t.cache.speculate ([1, 2, 3, 4, 5] ++ [6]) 3).map fun found =>
        (s.env.diverge, t.rowKept startsWith [1, 2, 3, 4, 5] (t.previous.lookup "a") t.cache
          (t.rowCap 5 [6, 9, 9]), found.1)) (some (false, 2, [7, 8])) (by with_unfolding_all decide)
  obtain ⟨t, ht, hfound⟩ := Option.bind_eq_some_iff.mp hview
  obtain ⟨⟨tail, score, m⟩, hlookup, heq⟩ := Option.map_eq_some_iff.mp hfound
  obtain ⟨hdiv, heq⟩ := Prod.mk.inj heq
  obtain ⟨hkept, rfl⟩ := Prod.mk.inj heq
  refine ⟨s, s', t, hs, hdiv, hcall, ht, hkept, ⟨score, m, hlookup⟩, ?_⟩
  intro haligned
  exact absurd (haligned 2 7 (by decide) rfl (by decide)) (by decide)

end HybridMixer
end SuffixHybrid
