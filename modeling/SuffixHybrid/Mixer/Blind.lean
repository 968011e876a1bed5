import SuffixHybrid.Mixer.Call

/-!
# The native tokens that a diverge row reads

A diverge row compares its candidate with the native draft up to their first disagreement, and decides
there. The native tokens behind it go into the published draft and nowhere else: two native drafts that
agree up to the disagreement lead to the same candidate, the same decision and the same mixer, and each
published draft is the same overlay on its own native draft (`DecidesBlind`). A merge of the two
buffers can therefore run where the native draft is not known yet.
-/

namespace SuffixHybrid
open Lib

namespace HybridMixer

/-- The candidate of a diverge row, with the mixer and the slot that the row opens. -/
structure Chosen [F64] (s : HybridMixer) (decide : Decide) (i : ℕ) (id : ReqId) (native : List Token)
    (accepted : ℤ) (opened : HybridMixer) (p : Previous) (cand : List Token) (matched : ℕ)
    (selfLookup : Bool) : Prop where
  opens : ∃ continuity delta,
    decide i ((s.previous.lookup id).map (·.context)) = some (continuity, delta) ∧
      s.openRow continuity (s.previous.lookup id) delta accepted = some (opened, p)
  found : opened.candidate p.context (opened.rowCap p.context.length native)
    = some (cand, matched, selfLookup)

section row
variable [F64] {s : HybridMixer} {native cand : List Token} {bucket : Fin divBuckets} {cap : ℕ}

/-- Another native draft that agrees up to the disagreement is decided in the same way. -/
lemma arbitrate_congr (hcap : cap ≤ native.length) (hcand : cand.length ≤ cap)
    {suffixTok nativeTok : Token} (hsuffix : cand[lcp cand native]? = some suffixTok)
    (hnative : native[lcp cand native]? = some nativeTok) {native' : List Token}
    (hlen : native'.length = native.length)
    (htake : native'.take (lcp cand native + 1) = native.take (lcp cand native + 1)) :
    s.arbitrate native' cand bucket cap
      = some (if trust (s.divWins bucket) > s.env.divThreshold then
          (laidOver cand native' cap, lcp cand native,
            some ⟨lcp cand native, suffixTok, nativeTok, bucket⟩, true)
        else (laidOver [] native' cap, cap,
            some ⟨lcp cand native, suffixTok, nativeTok, bucket⟩, false)) := by
  have hj := lcp_congr (List.getElem?_eq_some_iff.mp hsuffix).1 htake
  have hnative' : native'[lcp cand native']? = some nativeTok := by
    rw [hj, ← hnative, ← List.getElem?_take_of_lt (Nat.lt_succ_self (lcp cand native)),
      Nat.succ_eq_add_one, htake, List.getElem?_take_of_lt (Nat.lt_succ_self _)]
  rw [arbitrate_of_lt (hlen ▸ hcap) hcand (by rw [hj, hsuffix]) hnative', hj]

/-- A diverge row, from the candidate that it chooses. -/
lemma Chosen.divergeRow_eq {decide : Decide} {i : ℕ} {id : ReqId} {accepted : ℤ} {opened : HybridMixer}
    {p : Previous} {matched : ℕ} {selfLookup : Bool}
    (h : Chosen s decide i id native accepted opened p cand matched selfLookup) :
    s.divergeRow decide i id native accepted
      = (opened.arbitrate native cand (divBucket selfLookup matched)
          (opened.rowCap p.context.length native)).map fun (draft, nativeCount, div, overlaid) =>
        (draft, { opened with
          previous := opened.previous.put id { p with
            native := nativeCount, length := draft.length,
            arm := opened.rowCap p.context.length native,
            hadSuffix := Decidable.decide (nativeCount < opened.rowCap p.context.length native), div }
          selfHits := opened.selfHits + if selfLookup then 1 else 0
          divSuffixPublished := opened.divSuffixPublished + if overlaid then 1 else 0
          suffixProposed := opened.suffixProposed + if overlaid then cand.length - nativeCount else 0
          nativeProposed := opened.nativeProposed + nativeCount
          lastNative := opened.lastNative ++ [nativeCount]
          decisions := opened.decisions + 1 }) := by
  obtain ⟨continuity, delta, hdecide, hopen⟩ := h.opens
  simp only [divergeRow, hdecide, hopen, h.found, Option.bind_eq_bind, Option.bind_some]
  cases opened.arbitrate native cand (divBucket selfLookup matched)
    (opened.rowCap p.context.length native) <;> rfl

/-- A diverge row that ends has chosen a candidate. -/
lemma exists_chosen {decide : Decide} {i : ℕ} {id : ReqId} {accepted : ℤ}
    {out : List Token × HybridMixer} (h : s.divergeRow decide i id native accepted = some out) :
    ∃ opened p cand matched selfLookup,
      Chosen s decide i id native accepted opened p cand matched selfLookup := by
  simp only [divergeRow, Option.bind_eq_bind, Option.bind_eq_some_iff] at h
  obtain ⟨⟨continuity, delta⟩, hdecide, ⟨opened, p⟩, hopen, ⟨cand, matched, selfLookup⟩, hfound, _⟩ := h
  exact ⟨opened, p, cand, matched, selfLookup, ⟨continuity, delta, hdecide, hopen⟩, hfound⟩

/-- The choice does not read the native draft. -/
lemma Chosen.congr {decide : Decide} {i : ℕ} {id : ReqId} {accepted : ℤ} {opened : HybridMixer}
    {p : Previous} {matched : ℕ} {selfLookup : Bool}
    (h : Chosen s decide i id native accepted opened p cand matched selfLookup)
    {native' : List Token} (hlen : native'.length = native.length) :
    Chosen s decide i id native' accepted opened p cand matched selfLookup := by
  refine ⟨h.opens, ?_⟩
  rw [rowCap, hlen]
  exact h.found

/-- What a diverge row decides, it decides on its native draft up to the first disagreement with the
candidate. Another native draft of the same length that agrees so far leads to the same candidate, the
same disagreement, bucket and source and the same mixer. Either way the published draft is the native
draft with nothing or the whole candidate laid over it. Where the candidate agrees everywhere, the native
draft is published and no divergence is recorded. -/
def DecidesBlind (s : HybridMixer) (decide : Decide) (i : ℕ) (id : ReqId) (native : List Token)
    (accepted : ℤ) (draft : List Token) (t : HybridMixer) : Prop :=
  ∃ opened p cand matched selfLookup,
    Chosen s decide i id native accepted opened p cand matched selfLookup ∧
    (lcp cand native < cand.length → ∃ laid suffixTok nativeTok,
      (laid = [] ∨ laid = cand) ∧
      draft = laidOver laid native (opened.rowCap p.context.length native) ∧
      cand[lcp cand native]? = some suffixTok ∧ native[lcp cand native]? = some nativeTok ∧
      (t.previous.lookup id).map (·.div)
        = some (some ⟨lcp cand native, suffixTok, nativeTok, divBucket selfLookup matched⟩) ∧
      ∀ native' : List Token, native'.length = native.length →
        native'.take (lcp cand native + 1) = native.take (lcp cand native + 1) →
        Chosen s decide i id native' accepted opened p cand matched selfLookup ∧
        lcp cand native' = lcp cand native ∧
        s.divergeRow decide i id native' accepted
          = some (laidOver laid native' (opened.rowCap p.context.length native), t)) ∧
    (lcp cand native = cand.length →
      draft = native.take (opened.rowCap p.context.length native) ∧
      (t.previous.lookup id).map (·.div) = some none)

lemma decidesBlind {decide : Decide} {i : ℕ} {id : ReqId} {accepted : ℤ} {draft : List Token}
    {t : HybridMixer} (h : s.divergeRow decide i id native accepted = some (draft, t)) :
    s.DecidesBlind decide i id native accepted draft t := by
  obtain ⟨opened, p, cand, matched, selfLookup, hchosen⟩ := exists_chosen h
  have hrun := hchosen.divergeRow_eq
  have hcand := candidate_length_le hchosen.found
  have hcap := rowCap_le_length opened p.context.length native
  refine ⟨opened, p, cand, matched, selfLookup, hchosen, fun hlt => ?_, fun hagree => ?_⟩
  · have hn : lcp cand native < native.length := by omega
    have hsuffix := List.getElem?_eq_getElem hlt
    have hnative := List.getElem?_eq_getElem hn
    rw [h, arbitrate_of_lt hcap hcand hsuffix hnative, Option.map_some] at hrun
    have hsame (laid native' : List Token) (hlen : native'.length = native.length) :
        (laidOver laid native' (opened.rowCap p.context.length native)).length
          = (laidOver laid native (opened.rowCap p.context.length native)).length := by
      simp only [laidOver, List.length_append, List.length_drop, List.length_take, hlen]
    have hother (native' : List Token) (hlen : native'.length = native.length) :
        opened.rowCap p.context.length native' = opened.rowCap p.context.length native := by
      rw [rowCap, rowCap, hlen]
    by_cases htrust : trust (opened.divWins (divBucket selfLookup matched)) > opened.env.divThreshold
    · rw [if_pos htrust] at hrun
      cases hrun
      refine ⟨cand, _, _, Or.inr rfl, rfl, hsuffix, hnative, ?_, fun native' hlen htake => ?_⟩
      · rw [Map.lookup_put_self, Option.map_some]
      · refine ⟨hchosen.congr hlen, lcp_congr hlt htake, ?_⟩
        rw [(hchosen.congr hlen).divergeRow_eq, hother native' hlen,
          arbitrate_congr hcap hcand hsuffix hnative hlen htake, if_pos htrust, Option.map_some]
        simp only [hsame cand native' hlen]
    · rw [if_neg htrust] at hrun
      cases hrun
      refine ⟨[], _, _, Or.inl rfl, rfl, hsuffix, hnative, ?_, fun native' hlen htake => ?_⟩
      · rw [Map.lookup_put_self, Option.map_some]
      · refine ⟨hchosen.congr hlen, lcp_congr hlt htake, ?_⟩
        rw [(hchosen.congr hlen).divergeRow_eq, hother native' hlen,
          arbitrate_congr hcap hcand hsuffix hnative hlen htake, if_neg htrust, Option.map_some]
        simp only [hsame [] native' hlen]
  · rw [h, arbitrate_of_agree hcap hcand hagree, Option.map_some] at hrun
    cases hrun
    exact ⟨rfl, by rw [Map.lookup_put_self, Option.map_some]⟩

/-- On every mixer, a diverge row decides without the native tokens behind the disagreement. With the
invariant of the reachable mixers it ends. -/
theorem divergeRow_blind (s : HybridMixer) (decide : Decide) (i : ℕ) (id : ReqId) (native : List Token)
    (accepted : ℤ) :
    (∀ draft t, s.divergeRow decide i id native accepted = some (draft, t) →
      s.DecidesBlind decide i id native accepted draft t) ∧
    (s.Inv → ∀ same rows row, decide.Compares same rows → rows[i]? = some row →
      ∃ draft t, s.divergeRow decide i id native accepted = some (draft, t)) := by
  refine ⟨fun draft t h => decidesBlind h, fun hinv same rows row hd hrow => ?_⟩
  obtain ⟨_, _, _, _, _, draft, t, hrun, _⟩ := divergeRow_spec hinv.cache hd hrow id native accepted
  exact ⟨draft, t, hrun⟩

end row

/-- A mixer with one cached sequence. -/
def oneSequence : HybridMixer :=
  { empty (Config.ofN 1 Nat.one_pos) { diverge := true } 3 100 (Nat.succ_pos 2) with
    cache := ((Cache.new (Config.ofN 1 Nat.one_pos)).add [1, 2, 8, 3, 5]).getD
      (Cache.new (Config.ofN 1 Nat.one_pos)) }

/-- The candidate `[8, 3]` disagrees with the native draft at its second token, so the third one does
not count. -/
theorem divergeRow_blind_third :
    ∃ t, oneSequence.divergeRow (decideContexts [[1, 2]]) 0 "a" [8, 4, 9] (-1)
        = some ([8, 4, 9], t) ∧
      oneSequence.divergeRow (decideContexts [[1, 2]]) 0 "a" [8, 4, 7] (-1) = some ([8, 4, 7], t) := by
  have hcand : ((oneSequence.candidate [1, 2] 3).map fun found => found.1) = some [8, 3] := by
    with_unfolding_all decide
  have hview : ((oneSequence.divergeRow (decideContexts [[1, 2]]) 0 "a" [8, 4, 9] (-1)).map Prod.fst)
      = some [8, 4, 9] := by with_unfolding_all decide
  obtain ⟨⟨draft, t⟩, hrun, rfl⟩ := Option.map_eq_some_iff.mp hview
  obtain ⟨opened, p, cand, matched, selfLookup, hchosen, hblind, _⟩ := (divergeRow_blind _ _ _ _ _ _).1 _ _ hrun
  obtain ⟨continuity, delta, hdecide, hopen⟩ := hchosen.opens
  cases hdecide
  cases hopen
  have hfound : oneSequence.candidate [1, 2] 3 = some (cand, matched, selfLookup) := hchosen.found
  rw [hfound] at hcand
  obtain rfl : cand = [8, 3] := Option.some.inj hcand
  obtain ⟨laid, _, _, hover, hdraft, _, _, _, hother⟩ := hblind (by decide)
  refine ⟨t, hrun, ?_⟩
  rw [(hother [8, 4, 7] rfl rfl).2.2]
  rcases hover with rfl | rfl
  · rfl
  · exact absurd hdraft (by decide)

end HybridMixer
end SuffixHybrid
