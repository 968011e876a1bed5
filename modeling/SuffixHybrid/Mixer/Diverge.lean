import SuffixHybrid.Mixer.Legacy

/-!
# Rows of the divergence split

A diverge row looks up a candidate for its verified context. Where the candidate disagrees with the
native draft, the bucket of the lookup decides which of the two is published (`Overrules`).
`arbitrate_eq` is the closed form of that decision and `divergeRow_spec` the one of the row.
-/

namespace SuffixHybrid
open Lib

namespace HybridMixer

/-- A divergence that reaches into the new tokens is resolved, without further effect. -/
lemma resolve_total [F64] (s : HybridMixer) (div : Option Divergence) (accepted : ℤ)
    (delta : List Token) : ∃ wins observed,
    s.resolve div accepted delta = some { s with divWins := wins, divObserved := observed } := by
  unfold resolve
  cases div with
  | none => exact ⟨s.divWins, s.divObserved, rfl⟩
  | some d =>
    dsimp only
    split
    case isTrue h =>
      rw [List.getElem?_eq_getElem h.2]
      exact ⟨_, _, rfl⟩
    case isFalse => exact ⟨s.divWins, s.divObserved, rfl⟩

/-- A diverge row opens with the new context of its request. -/
lemma openRow_total [F64] {s : HybridMixer} (hinv : s.cache.Inv)
    (same : List Token → List Token → Bool) (row : List Token) (slot : Option Previous)
    (accepted : ℤ) :
    ∃ cache wins observed p,
      s.openRow (classified same row (slot.map (·.context))).1 slot
          (classified same row (slot.map (·.context))).2 accepted
        = some ({ s with cache, divWins := wins, divObserved := observed }, p) ∧
      cache.Inv ∧ cache.cfg = s.cache.cfg ∧ p.context = contextAfter same row slot ∧
      p.suffixEstimate = slot.bind (·.suffixEstimate) := by
  cases slot with
  | none => exact ⟨s.cache, s.divWins, s.divObserved, _, rfl, hinv, rfl, rfl, rfl⟩
  | some p =>
    by_cases hsame : same p.context row = true
    · obtain ⟨wins, observed, hres⟩ :=
        s.resolve_total p.div accepted (row.drop p.context.length)
      refine ⟨s.cache, wins, observed,
        { p with context := p.context ++ row.drop p.context.length, div := none }, ?_, hinv, rfl, ?_, ?_⟩
      · simp [openRow, classified, hsame, hres]
      · simp [contextAfter, hsame]
      · rfl
    · obtain ⟨cache, hadd, hcinv, hcfg⟩ := hinv.add p.context
      refine ⟨cache, s.divWins, s.divObserved, { p with context := row, div := none }, ?_, hcinv,
        hcfg, ?_, ?_⟩
      · simp [openRow, classified, hsame, hadd]
      · simp [contextAfter, hsame]
      · rfl

/-- A candidate fits its cap. -/
lemma candidate_length_le [F64] {s : HybridMixer} {cand : List Token} {cap : ℕ} {ctx : List Token}
    {matched : ℕ} {selfLookup : Bool} (h : s.candidate ctx cap = some (cand, matched, selfLookup)) :
    cand.length ≤ cap := by
  have htake (l : List Token) : (l.take cap).length ≤ cap := by
    rw [List.length_take]
    exact min_le_left _ _
  simp only [candidate, Option.bind_eq_bind, Option.bind_eq_some_iff] at h
  obtain ⟨⟨cached, _, _⟩, _, h⟩ := h
  split at h
  · obtain ⟨⟨toks, _⟩, _, h⟩ := Option.bind_eq_some_iff.mp h
    split at h <;> cases h
    · exact htake toks
    · exact htake cached
  · cases h
    exact htake cached

/-- The candidate of a row is found, and ends within the cap. -/
lemma candidate_total [F64] {s : HybridMixer} (hinv : s.cache.Inv) (ctx : List Token) (cap : ℕ) :
    ∃ cand matched selfLookup, s.candidate ctx cap = some (cand, matched, selfLookup) ∧
      cand.length ≤ cap := by
  obtain ⟨cand, score, m, hspec, _⟩ := hinv.speculate ctx cap
  obtain ⟨toks, order, hngram, _⟩ :=
    Engine.ngram_total ctx s.env.selfLo s.env.selfHi cap s.env.selfWindow
  obtain ⟨⟨found, matched, selfLookup⟩, hfound⟩ : ∃ out, s.candidate ctx cap = some out := by
    simp only [candidate, hspec, hngram, Option.bind_eq_bind, Option.bind_some]
    split
    · split <;> exact ⟨_, rfl⟩
    · exact ⟨_, rfl⟩
  exact ⟨found, matched, selfLookup, hfound, candidate_length_le hfound⟩

lemma firstDiff_eq {cand native : List Token} (h : cand.length ≤ native.length) (t : ℕ) :
    firstDiff cand native t
      = some (if lcp cand native < cand.length then some (t + lcp cand native) else none) := by
  induction cand generalizing native t with
  | nil => rfl
  | cons c cand ih =>
    cases native with
    | nil => simp at h
    | cons n native =>
      by_cases hcn : c = n
      · simp only [firstDiff, hcn, ne_eq, not_true_eq_false, if_false, lcp, if_true,
          List.length_cons, Nat.add_lt_add_iff_right]
        rw [ih (by simpa using h)]
        split
        · congr 2
          omega
        · rfl
      · simp [firstDiff, lcp, hcn]

/-- The candidate disagrees with the native draft, and its bucket is trusted. -/
def Overrules [F64] (s : HybridMixer) (cand native : List Token) (bucket : Fin divBuckets) : Prop :=
  lcp cand native < cand.length ∧ trust (s.divWins bucket) > s.env.divThreshold

instance [F64] (s : HybridMixer) (cand native : List Token) (bucket : Fin divBuckets) :
    Decidable (s.Overrules cand native bucket) := inferInstanceAs (Decidable (_ ∧ _))

/-- The draft of a diverge row. -/
def overlaid [F64] (s : HybridMixer) (native cand : List Token) (bucket : Fin divBuckets)
    (cap : ℕ) : List Token :=
  if s.Overrules cand native bucket then cand ++ (native.take cap).drop cand.length
  else native.take cap

lemma overlaid_length [F64] {s : HybridMixer} {native cand : List Token} {cap : ℕ}
    (bucket : Fin divBuckets) (hcap : cap ≤ native.length) (hcand : cand.length ≤ cap) :
    (s.overlaid native cand bucket cap).length = cap := by
  unfold overlaid
  split <;> simp only [List.length_append, List.length_drop, List.length_take] <;> omega

/-- The native count of a diverge draft. -/
lemma lcp_overlaid [F64] {s : HybridMixer} {native : List Token} (cand : List Token) {cap : ℕ}
    (bucket : Fin divBuckets) (hcap : cap ≤ native.length) :
    lcp (s.overlaid native cand bucket cap) native
      = if s.Overrules cand native bucket then lcp cand native else cap := by
  unfold overlaid
  split
  case isTrue h => exact lcp_append_of_lt h.1 _
  case isFalse => exact lcp_take hcap

/-- The draft that lays `laid` over the native draft. -/
def laidOver (laid native : List Token) (cap : ℕ) : List Token :=
  laid ++ (native.take cap).drop laid.length

/-- A candidate that agrees with the native draft leaves it alone. -/
lemma arbitrate_of_agree [F64] {s : HybridMixer} {native cand : List Token} {bucket : Fin divBuckets}
    {cap : ℕ} (hcap : cap ≤ native.length) (hcand : cand.length ≤ cap) (h : lcp cand native = cand.length) :
    s.arbitrate native cand bucket cap = some (native.take cap, cap, none, false) := by
  simp only [arbitrate, sliceTo_of_le hcap, firstDiff_eq (hcand.trans hcap), h, lt_irrefl, if_false,
    Option.bind_eq_bind, Option.bind_some]

/-- A candidate that disagrees is laid over the native draft as a whole, or not at all. -/
lemma arbitrate_of_lt [F64] {s : HybridMixer} {native cand : List Token} {bucket : Fin divBuckets}
    {cap : ℕ} (hcap : cap ≤ native.length) (hcand : cand.length ≤ cap)
    {suffixTok nativeTok : Token} (hsuffix : cand[lcp cand native]? = some suffixTok)
    (hnative : native[lcp cand native]? = some nativeTok) :
    s.arbitrate native cand bucket cap
      = some (if trust (s.divWins bucket) > s.env.divThreshold then
          (laidOver cand native cap, lcp cand native,
            some ⟨lcp cand native, suffixTok, nativeTok, bucket⟩, true)
        else (laidOver [] native cap, cap,
            some ⟨lcp cand native, suffixTok, nativeTok, bucket⟩, false)) := by
  have hlt : lcp cand native < cand.length := (List.getElem?_eq_some_iff.mp hsuffix).1
  have hlen : cand.length ≤ (native.take cap).length := by
    rw [List.length_take_of_le hcap]
    exact hcand
  simp only [arbitrate, sliceTo_of_le hcap, firstDiff_eq (hcand.trans hcap), if_pos hlt, Nat.zero_add,
    Option.bind_eq_bind, Option.bind_some, hsuffix, hnative]
  split
  · rw [overlay, if_pos hlen]
    rfl
  · rfl

/-- The closed form of `arbitrate`: the count is exact. -/
lemma arbitrate_eq [F64] (s : HybridMixer) {native cand : List Token} (bucket : Fin divBuckets)
    {cap : ℕ} (hcap : cap ≤ native.length) (hcand : cand.length ≤ cap) :
    ∃ div, s.arbitrate native cand bucket cap =
      some (s.overlaid native cand bucket cap, lcp (s.overlaid native cand bucket cap) native, div,
        decide (s.Overrules cand native bucket)) := by
  rw [lcp_overlaid cand bucket hcap]
  by_cases hdiff : lcp cand native < cand.length
  · have hn : lcp cand native < native.length := by omega
    rw [arbitrate_of_lt hcap hcand (List.getElem?_eq_getElem hdiff) (List.getElem?_eq_getElem hn)]
    by_cases htrust : trust (s.divWins bucket) > s.env.divThreshold
    · have hover : s.Overrules cand native bucket := ⟨hdiff, htrust⟩
      exact ⟨_, by simp only [if_pos htrust, overlaid, hover, decide_true]; rfl⟩
    · have hover : ¬ s.Overrules cand native bucket := fun h => htrust h.2
      exact ⟨_, by simp only [if_neg htrust, overlaid, hover, decide_false]; rfl⟩
  · have hover : ¬ s.Overrules cand native bucket := fun h => hdiff h.1
    have hagree : lcp cand native = cand.length := Nat.le_antisymm (lcp_le_left _ _) (Nat.le_of_not_lt hdiff)
    rw [arbitrate_of_agree hcap hcand hagree]
    exact ⟨none, by simp [overlaid, hover]⟩

/-- What a diverge row does, from the state `opened` with its new context and the candidate of its
lookup. -/
structure DivergeRow [F64] (s : HybridMixer) (same : List Token → List Token → Bool)
    (row : List Token) (id : ReqId) (native : List Token) (accepted : ℤ) (opened : HybridMixer)
    (cand : List Token) (bucket : Fin divBuckets) (draft : List Token) (s' : HybridMixer) :
    Prop where
  opens : ∃ p, s.openRow (classified same row ((s.previous.lookup id).map (·.context))).1
    (s.previous.lookup id) (classified same row ((s.previous.lookup id).map (·.context))).2 accepted
      = some (opened, p)
  lookup : ∃ matched selfLookup,
    opened.candidate (contextAfter same row (s.previous.lookup id)) (s.rowCap row.length native)
      = some (cand, matched, selfLookup) ∧ bucket = divBucket selfLookup matched
  cand_length : cand.length ≤ s.rowCap row.length native
  draft_eq : draft = opened.overlaid native cand bucket (s.rowCap row.length native)
  after : ∃ p hits published proposed,
    Proposed p (contextAfter same row (s.previous.lookup id)) native draft ∧
    p.suffixEstimate = (s.previous.lookup id).bind (·.suffixEstimate) ∧
    s' = { opened with
      previous := s.previous.put id p
      selfHits := hits
      divSuffixPublished := published
      suffixProposed := proposed
      nativeProposed := s.nativeProposed + lcp draft native
      lastNative := s.lastNative ++ [lcp draft native]
      decisions := s.decisions + 1 }

/-- A row that resets no slot looks up in the cache as it is. -/
lemma DivergeRow.cache_eq [F64] {s opened s' : HybridMixer}
    {same : List Token → List Token → Bool} {row native cand draft : List Token} {id : ReqId}
    {accepted : ℤ} {bucket : Fin divBuckets}
    (h : DivergeRow s same row id native accepted opened cand bucket draft s')
    (hsame : ∀ p, s.previous.lookup id = some p → same p.context row = true) :
    opened.cache = s.cache := by
  obtain ⟨p', hopen⟩ := h.opens
  cases hslot : s.previous.lookup id with
  | none =>
    simp only [hslot, Option.map_none, classified, openRow, Option.some.injEq,
      Prod.mk.injEq] at hopen
    rw [← hopen.1]
  | some p =>
    obtain ⟨wins, observed, hres⟩ := s.resolve_total p.div accepted (row.drop p.context.length)
    simp only [hslot, Option.map_some, classified, hsame p hslot, if_true, openRow, hres,
      Option.bind_eq_bind, Option.bind_some, Option.some.injEq, Prod.mk.injEq] at hopen
    rw [← hopen.1]

/-- A diverge row ends and publishes the draft of its candidate. -/
theorem divergeRow_spec [F64] {s : HybridMixer} (hinv : s.cache.Inv) {decide : Decide}
    {same : List Token → List Token → Bool} {rows : List (List Token)}
    (hd : decide.Compares same rows) {i : ℕ} {row : List Token} (hrow : rows[i]? = some row)
    (id : ReqId) (native : List Token) (accepted : ℤ) :
    ∃ cache wins observed cand bucket draft s',
      s.divergeRow decide i id native accepted = some (draft, s') ∧ cache.Inv ∧
      cache.cfg = s.cache.cfg ∧
      DivergeRow s same row id native accepted
        { s with cache, divWins := wins, divObserved := observed } cand bucket draft s' := by
  have hdecide := hd.eq hrow ((s.previous.lookup id).map (·.context))
  obtain ⟨cache, wins, observed, p, hopen, hcinv, hcfg, hctx, hest⟩ :=
    openRow_total hinv same row (s.previous.lookup id) accepted
  generalize hs1 : ({ s with cache, divWins := wins, divObserved := observed } : HybridMixer) = s1
    at hopen
  have hcap1 : s1.rowCap p.context.length native = s.rowCap row.length native := by
    rw [hctx, contextAfter_length hd.bounded, ← hs1]
    rfl
  have hcap := rowCap_le_length s row.length native
  obtain ⟨cand, matched, selfLookup, hcand, hlen⟩ := candidate_total (s := s1)
    (by rw [← hs1]; exact hcinv) p.context (s.rowCap row.length native)
  obtain ⟨div, harb⟩ := s1.arbitrate_eq (divBucket selfLookup matched) hcap hlen
  have hdlen := overlaid_length (s := s1) (divBucket selfLookup matched) hcap hlen
  generalize hdraft : s1.overlaid native cand (divBucket selfLookup matched)
    (s.rowCap row.length native) = draft at harb hdlen
  have hall : s.divergeRow decide i id native accepted = some (draft, { s1 with
      previous := s1.previous.put id { p with
        native := lcp draft native, length := draft.length, arm := s.rowCap row.length native,
        hadSuffix := Decidable.decide (lcp draft native < s.rowCap row.length native), div }
      selfHits := s1.selfHits + if selfLookup then 1 else 0
      divSuffixPublished := s1.divSuffixPublished +
        if Decidable.decide (s1.Overrules cand native (divBucket selfLookup matched)) then 1 else 0
      suffixProposed := s1.suffixProposed +
        if Decidable.decide (s1.Overrules cand native (divBucket selfLookup matched)) then
          cand.length - lcp draft native else 0
      nativeProposed := s1.nativeProposed + lcp draft native
      lastNative := s1.lastNative ++ [lcp draft native]
      decisions := s1.decisions + 1 }) := by
    simp only [divergeRow, hdecide, hopen, hcap1, hcand, harb, Option.bind_eq_bind,
      Option.bind_some]
  refine ⟨cache, wins, observed, cand, divBucket selfLookup matched, draft, _, hall, hcinv, hcfg, ?_⟩
  rw [hs1]
  exact {
    opens := ⟨p, hopen⟩
    lookup := ⟨matched, selfLookup, by rw [← hctx]; exact hcand, rfl⟩
    cand_length := hlen
    draft_eq := hdraft.symm
    after := by
      refine ⟨_, _, _, _, ?_, ?_, by rw [← hs1]⟩
      · exact ⟨hctx, rfl, rfl, by simp only [hdlen]⟩
      · exact hest }

end HybridMixer
end SuffixHybrid
