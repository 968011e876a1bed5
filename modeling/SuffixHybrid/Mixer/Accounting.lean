import SuffixHybrid.Lib.Rounding
import SuffixHybrid.Mixer.Entry

/-!
# The counters of the mixer

A proposal is what a call publishes for a request, identified by the call and the request, with its
native count and its length. Feedback charges the proposal of the last call, once, since the call that
grades it also replaces it. `Books` states that over a run: the counters of tested and accepted tokens
are the sums over the gradings, `nativeProposed` is the sum over the proposals, and every grading is of
a proposal of its own. The counters are ordered because of that (`accounting_conserved`).

`suffixProposed` is the sum of the tails only where a published candidate of the divergence split fills
its draft. Behind a shorter one the slots are native filler that is not counted as proposed but is
counted as tested (`filler_tested`).
-/

namespace SuffixHybrid
open Lib

/-- A published draft: the call that made it, its request, its native count and its length. -/
structure Proposal where
  call : ℕ
  id : ReqId
  native : ℕ
  length : ℕ
  deriving DecidableEq

/-- The call and the request of a proposal. -/
def Proposal.key (q : Proposal) : ℕ × ReqId := (q.call, q.id)

/-- The tail of a proposal. -/
def Proposal.tail (q : Proposal) : ℕ := q.length - q.native

/-- Feedback on a proposal. -/
structure Grading where
  proposal : Proposal
  accepted : ℕ
  deriving DecidableEq

namespace Grading

/-- The tested tokens: the accepted ones and one rejected. -/
def tested (g : Grading) : ℕ := min (g.accepted + 1) g.proposal.length

def nativeTested (g : Grading) : ℕ := min g.tested g.proposal.native

def nativeAccepted (g : Grading) : ℕ := min g.accepted g.proposal.native

def suffixTested (g : Grading) : ℕ := g.tested - g.proposal.native

def suffixAccepted (g : Grading) : ℕ := g.accepted - g.proposal.native

/-- The parts of a grading add up. -/
lemma parts (g : Grading) : g.nativeAccepted + g.suffixAccepted = g.accepted ∧
    g.nativeTested + g.suffixTested = g.tested := by
  unfold nativeAccepted suffixAccepted nativeTested suffixTested
  omega

/-- Tested tokens are proposed ones, and accepted tokens are tested ones. -/
lemma ordered {g : Grading} (h : g.accepted ≤ g.proposal.length) :
    g.nativeAccepted ≤ g.nativeTested ∧ g.nativeTested ≤ g.proposal.native ∧
      g.suffixAccepted ≤ g.suffixTested ∧ g.suffixTested ≤ g.proposal.tail := by
  unfold nativeAccepted suffixAccepted nativeTested suffixTested tested Proposal.tail
  omega

end Grading

namespace HybridMixer

/-! ## Proposals and gradings -/

/-- The proposal that a mixer tracks for a request. -/
def proposalOf (s : HybridMixer) (id : ReqId) : Option Proposal :=
  (s.previous.lookup id).map fun p => ⟨s.calls, id, p.native, p.length⟩

/-- The grading of one row of feedback. -/
def gradingOf (s : HybridMixer) (e : ReqId × ℤ) : Option Grading :=
  if e.2 < 0 then none else (s.proposalOf e.1).map fun q => ⟨q, e.2.toNat⟩

/-- The gradings of the feedback of a call. -/
def gradings (s : HybridMixer) (ids : List ReqId) (accepted : Option (List ℤ)) : List Grading :=
  match accepted with
  | none => []
  | some feedback => (ids.zip feedback).filterMap s.gradingOf

/-- The gradings of an operation. -/
def opGradings [F64] (s : HybridMixer) : Op → List Grading
  | .call o ids src natives accepted =>
    match s.call o ids src natives accepted with
    | some (.ok _, _) => s.gradings ids accepted
    | _ => []
  | _ => []

/-- The proposals of an operation. -/
def opProposals [F64] (s : HybridMixer) : Op → List Proposal
  | .call o ids src natives accepted =>
    match s.call o ids src natives accepted with
    | some (.ok _, s') => ids.filterMap s'.proposalOf
    | _ => []
  | _ => []

/-! ## The feedback pass -/

/-- The feedback pass charges its gradings. -/
structure Charged (s : HybridMixer) (gs : List Grading) (s' : HybridMixer) : Prop where
  nativeTested : s'.nativeTested = s.nativeTested + (gs.map Grading.nativeTested).sum
  nativeAccepted : s'.nativeAccepted = s.nativeAccepted + (gs.map Grading.nativeAccepted).sum
  suffixTested : s'.suffixTested = s.suffixTested + (gs.map Grading.suffixTested).sum
  suffixAccepted : s'.suffixAccepted = s.suffixAccepted + (gs.map Grading.suffixAccepted).sum
  nativeProposed : s'.nativeProposed = s.nativeProposed
  suffixProposed : s'.suffixProposed = s.suffixProposed
  calls : s'.calls = s.calls

lemma Charged.trans {s t u : HybridMixer} {gs hs : List Grading} (h : Charged s gs t)
    (h' : Charged t hs u) : Charged s (gs ++ hs) u where
  nativeTested := by rw [h'.nativeTested, h.nativeTested, List.map_append, List.sum_append, add_assoc]
  nativeAccepted := by
    rw [h'.nativeAccepted, h.nativeAccepted, List.map_append, List.sum_append, add_assoc]
  suffixTested := by rw [h'.suffixTested, h.suffixTested, List.map_append, List.sum_append, add_assoc]
  suffixAccepted := by
    rw [h'.suffixAccepted, h.suffixAccepted, List.map_append, List.sum_append, add_assoc]
  nativeProposed := h'.nativeProposed.trans h.nativeProposed
  suffixProposed := h'.suffixProposed.trans h.suffixProposed
  calls := h'.calls.trans h.calls

lemma feedbackRow_charged [F64] (s : HybridMixer) (e : ReqId × ℤ) :
    Charged s (s.gradingOf e).toList (s.feedbackRow e.1 e.2) := by
  unfold feedbackRow gradingOf proposalOf
  split
  · exact ⟨rfl, rfl, rfl, rfl, rfl, rfl, rfl⟩
  · split
    case h_1 hnone =>
      rw [hnone]
      exact ⟨rfl, rfl, rfl, rfl, rfl, rfl, rfl⟩
    case h_2 p hp =>
      rw [hp]
      exact ⟨rfl, rfl, rfl, rfl, rfl, rfl, rfl⟩

/-- The feedback of another request leaves a grading as it is. -/
lemma gradingOf_feedbackRow [F64] (s : HybridMixer) {e e' : ReqId × ℤ} (h : e'.1 ≠ e.1) :
    (s.feedbackRow e.1 e.2).gradingOf e' = s.gradingOf e' := by
  simp only [gradingOf, proposalOf, feedbackRow_lookup, h, if_false,
    (feedbackRow_charged s e).calls]

lemma foldl_feedback_charged [F64] {pairs : List (ReqId × ℤ)} (hnodup : (pairs.map Prod.fst).Nodup)
    (s : HybridMixer) :
    Charged s (pairs.filterMap s.gradingOf)
      (pairs.foldl (fun s (id, a) => s.feedbackRow id a) s) := by
  induction pairs generalizing s with
  | nil => exact ⟨rfl, rfl, rfl, rfl, rfl, rfl, rfl⟩
  | cons e pairs ih =>
    obtain ⟨hnew, hrest⟩ := List.nodup_cons.mp hnodup
    have hsame : pairs.filterMap (s.feedbackRow e.1 e.2).gradingOf = pairs.filterMap s.gradingOf := by
      apply List.filterMap_congr
      intro e' he'
      have hmem : e'.1 ∈ pairs.map Prod.fst := List.mem_map_of_mem he'
      exact gradingOf_feedbackRow s fun heq => hnew (heq ▸ hmem)
    have hcons : (e :: pairs).filterMap s.gradingOf
        = (s.gradingOf e).toList ++ pairs.filterMap s.gradingOf := by
      cases hg : s.gradingOf e <;> simp [hg]
    rw [hcons, ← hsame]
    exact (feedbackRow_charged s e).trans (ih hrest _)

lemma feedback_charged [F64] (s : HybridMixer) {ids : List ReqId} (hids : ids.Nodup)
    (accepted : Option (List ℤ)) : Charged s (s.gradings ids accepted) (s.feedback ids accepted) := by
  cases accepted with
  | none => exact ⟨rfl, rfl, rfl, rfl, rfl, rfl, rfl⟩
  | some v => exact foldl_feedback_charged (hids.sublist (zip_fst_sublist ids v)) s

/-! ## The rows -/

/-- A row lays a candidate over its native draft that is shorter than the draft. -/
def shortOverlay [F64] (s : HybridMixer) (decide : Decide) (i : ℕ) (id : ReqId) (native : List Token)
    (accepted : ℤ) : Bool :=
  s.env.diverge && (do
    let slot := s.previous.lookup id
    let (continuity, delta) ← decide i (slot.map (·.context))
    let (opened, p) ← s.openRow continuity slot delta accepted
    let cap := opened.rowCap p.context.length native
    let (cand, matched, selfLookup) ← opened.candidate p.context cap
    some (Decidable.decide (opened.Overrules cand native (divBucket selfLookup matched) ∧
      cand.length < cap)) : Option Bool).getD false

/-- A row of the loop lays a short candidate over its native draft, from row `i` on. -/
def anyShortOverlay [F64] (decide : Decide) (accepted : Option (List ℤ)) :
    ℕ → List (ReqId × List Token) → HybridMixer → Bool
  | _, [], _ => false
  | i, (id, native) :: rest, s =>
    s.shortOverlay decide i id native (feedbackAt accepted i) ||
      match s.row decide accepted i id native with
      | some (_, s) => anyShortOverlay decide accepted (i + 1) rest s
      | none => false

/-- The estimate of a record is the initial one or was in the slot. -/
def EstimateFrom [F64] (s : HybridMixer) (slot : Option Previous) (p : Previous) : Prop :=
  p.acceptEstimate = F64.ofNat s.initial ∨ ∃ q, slot = some q ∧ p.acceptEstimate = q.acceptEstimate

/-- What a row does to the counters and the estimates. -/
structure RowCounts [F64] (s : HybridMixer) (short : Bool) (id : ReqId) (native draft : List Token)
    (t : HybridMixer) : Prop where
  nativeTested : t.nativeTested = s.nativeTested
  nativeAccepted : t.nativeAccepted = s.nativeAccepted
  suffixTested : t.suffixTested = s.suffixTested
  suffixAccepted : t.suffixAccepted = s.suffixAccepted
  calls : t.calls = s.calls
  initial : t.initial = s.initial
  nativeProposed : t.nativeProposed = s.nativeProposed + lcp draft native
  suffixProposed : short = false →
    t.suffixProposed = s.suffixProposed + (draft.length - lcp draft native)
  estimate : ∀ p, t.previous.lookup id = some p → s.EstimateFrom (s.previous.lookup id) p

/-- The record that closes a legacy row. -/
lemma closeRow_estimate [F64] {s : HybridMixer} {cache cache' : Cache} {continuity : Continuity}
    {slot : Option Previous} {delta : List Token} {estimate : Option ℚ} {budget : ℕ}
    {out : List Token × ℕ × Bool} {p : Previous}
    (h : s.closeRow cache continuity slot delta estimate budget out = some (cache', p)) :
    s.EstimateFrom slot p := by
  cases slot with
  | none =>
    cases h
    exact Or.inl rfl
  | some q =>
    simp only [closeRow, Option.bind_eq_bind] at h
    split at h <;>
    · obtain ⟨_, _, heq⟩ := Option.bind_eq_some_iff.mp h
      cases heq
      cases estimate with
      | none => exact Or.inl rfl
      | some e => exact Or.inr ⟨q, rfl, rfl⟩

/-- The reset of a slot keeps its estimate. -/
lemma takeReset_estimate [F64] {s : HybridMixer} {continuity : Continuity}
    {slot rest : Option Previous} {cache : Cache} {p : Previous}
    (h : s.takeReset continuity slot = some (cache, rest)) (hp : s.EstimateFrom rest p) :
    s.EstimateFrom slot p := by
  rcases hp with hp | ⟨q, hq, hp⟩
  · exact Or.inl hp
  · cases slot with
    | none =>
      cases continuity <;> · cases h; cases hq
    | some r =>
      cases continuity with
      | fresh | continuing =>
        cases h
        exact Or.inr ⟨q, hq, hp⟩
      | reset =>
        obtain ⟨c, _, heq⟩ := Option.map_eq_some_iff.mp h
        cases heq
        cases hq
        exact Or.inr ⟨r, rfl, hp⟩

lemma legacyRow_estimate [F64] {s t : HybridMixer} {decide : Decide} {i : ℕ} {id : ReqId}
    {native draft : List Token} (h : s.legacyRow decide i id native = some (draft, t)) :
    ∀ p, t.previous.lookup id = some p → s.EstimateFrom (s.previous.lookup id) p := by
  simp only [legacyRow, Option.bind_eq_bind, Option.bind_eq_some_iff, Prod.exists] at h
  obtain ⟨continuity, delta, _, cache, slot, hreset, key, _, tail, score, m, _, h⟩ := h
  split at h
  · simp only [Option.bind_eq_some_iff, Prod.exists, Option.some.injEq, Prod.mk.injEq] at h
    obtain ⟨_, _, _, _, cache', p, hclose, rfl, rfl⟩ := h
    intro q hq
    rw [Map.lookup_put_self] at hq
    cases hq
    exact takeReset_estimate hreset (closeRow_estimate hclose)
  · simp only [Option.bind_eq_some_iff, Prod.exists, Option.some.injEq, Prod.mk.injEq] at h
    obtain ⟨_, _, _, _, cache', p, hclose, rfl, rfl⟩ := h
    intro q hq
    rw [Map.lookup_put_self] at hq
    cases hq
    exact takeReset_estimate hreset (closeRow_estimate hclose)

/-- The reset, the continuation or the arrival of a slot keeps its estimate. -/
lemma openRow_estimate [F64] {s opened : HybridMixer} {continuity : Continuity}
    {slot : Option Previous} {delta : List Token} {accepted : ℤ} {p : Previous}
    (h : s.openRow continuity slot delta accepted = some (opened, p)) : s.EstimateFrom slot p := by
  cases slot with
  | none =>
    cases h
    exact Or.inl rfl
  | some q =>
    simp only [openRow, Option.bind_eq_bind] at h
    split at h <;>
    · obtain ⟨_, _, heq⟩ := Option.bind_eq_some_iff.mp h
      cases heq
      exact Or.inr ⟨q, rfl, rfl⟩

/-- A candidate laid over a native draft that it fills leaves its own tokens as the tail, the native
draft leaves none. -/
lemma overlaid_tail [F64] {s : HybridMixer} {native cand : List Token} {bucket : Fin divBuckets}
    {cap : ℕ} (hcap : cap ≤ native.length) (hcand : cand.length ≤ cap)
    (hfill : ¬ (s.Overrules cand native bucket ∧ cand.length < cap)) :
    (if Decidable.decide (s.Overrules cand native bucket) then
        cand.length - lcp (s.overlaid native cand bucket cap) native else 0)
      = (s.overlaid native cand bucket cap).length - lcp (s.overlaid native cand bucket cap) native := by
  rw [overlaid_length bucket hcap hcand, lcp_overlaid cand bucket hcap]
  by_cases hover : s.Overrules cand native bucket
  · have hfull : cand.length = cap := by
      by_contra hne
      exact hfill ⟨hover, by omega⟩
    simp [hover, hfull]
  · simp [hover]

lemma divergeRow_counts [F64] {s t : HybridMixer} (hinv : s.cache.Inv) {decide : Decide}
    {same : List Token → List Token → Bool} {rows : List (List Token)}
    (hd : decide.Compares same rows) {i : ℕ} {row : List Token} (hrow : rows[i]? = some row)
    {id : ReqId} {native draft : List Token} {accepted : ℤ} (hdiv : s.env.diverge = true)
    (h : s.divergeRow decide i id native accepted = some (draft, t)) :
    RowCounts s (s.shortOverlay decide i id native accepted) id native draft t := by
  have hdecide := hd.eq hrow ((s.previous.lookup id).map (·.context))
  obtain ⟨cache, wins, observed, cand, bucket, draft', t', hrun, _, _, hspec⟩ :=
    divergeRow_spec hinv hd hrow id native accepted
  obtain ⟨_, _, _, p', hopen', _, _, hctx, _⟩ :=
    openRow_total hinv same row (s.previous.lookup id) accepted
  obtain ⟨p, hopen⟩ := hspec.opens
  rw [hopen, Option.some.injEq, Prod.mk.injEq] at hopen'
  rw [← hopen'.2] at hctx
  obtain ⟨matched, selfLookup, hcand, rfl⟩ := hspec.lookup
  generalize hs1 : ({ s with cache, divWins := wins, divObserved := observed } : HybridMixer) = s1
    at hopen hcand hspec
  have hcap1 : s1.rowCap p.context.length native = s.rowCap row.length native := by
    rw [hctx, contextAfter_length hd.bounded, ← hs1]
    rfl
  have hcap := rowCap_le_length s row.length native
  obtain ⟨div, harb⟩ := s1.arbitrate_eq (divBucket selfLookup matched) hcap hspec.cand_length
  rw [← hctx] at hcand
  simp only [divergeRow, hdecide, hopen, hcap1, hcand, harb, Option.bind_eq_bind, Option.bind_some,
    Option.some.injEq, Prod.mk.injEq] at h
  obtain ⟨hdraft, rfl⟩ := h
  exact {
    nativeTested := by rw [← hs1]
    nativeAccepted := by rw [← hs1]
    suffixTested := by rw [← hs1]
    suffixAccepted := by rw [← hs1]
    calls := by rw [← hs1]
    initial := by rw [← hs1]
    nativeProposed := by rw [← hs1, ← hdraft, ← hs1]
    suffixProposed := fun hfill => by
      simp only [shortOverlay, hdiv, hdecide, hopen, hcap1, hcand, Option.bind_eq_bind,
        Option.bind_some, Bool.true_and, Option.getD_some, decide_eq_false_iff_not] at hfill
      dsimp only
      rw [overlaid_tail hcap hspec.cand_length hfill, ← hdraft, ← hs1]
    estimate := fun q hq => by
      dsimp only at hq
      rw [Map.lookup_put_self] at hq
      cases hq
      have hslot : s.EstimateFrom (s.previous.lookup id) p := openRow_estimate hopen
      exact hslot }

lemma row_counts [F64] {s t : HybridMixer} (hinv : s.cache.Inv) {decide : Decide}
    {same : List Token → List Token → Bool} {rows : List (List Token)}
    (hd : decide.Compares same rows) {i : ℕ} {row : List Token} (hrow : rows[i]? = some row)
    {accepted : Option (List ℤ)} (ha : ∀ v, accepted = some v → i < v.length) {id : ReqId}
    {native draft : List Token} (h : s.row decide accepted i id native = some (draft, t)) :
    RowCounts s (s.shortOverlay decide i id native (feedbackAt accepted i)) id native draft t := by
  by_cases hdiv : s.env.diverge = true
  · rw [row_diverge hdiv ha] at h
    exact divergeRow_counts hinv hd hrow hdiv h
  · rw [row_legacy hdiv] at h
    have hestimate := legacyRow_estimate h
    obtain ⟨cache, tail, draft', t', hrun, _, _, hspec⟩ := legacyRow_spec hinv hd hrow id native
    rw [h] at hrun
    cases hrun
    obtain ⟨p, _, _, rfl⟩ := hspec.after
    exact ⟨rfl, rfl, rfl, rfl, rfl, rfl, rfl, fun _ => rfl, hestimate⟩

/-! ## The row loop -/

/-- What the row loop does to the counters and the estimates. -/
structure LoopCounts [F64] (s : HybridMixer) (short : Bool) (ids : List ReqId) (s' : HybridMixer) :
    Prop where
  nativeTested : s'.nativeTested = s.nativeTested
  nativeAccepted : s'.nativeAccepted = s.nativeAccepted
  suffixTested : s'.suffixTested = s.suffixTested
  suffixAccepted : s'.suffixAccepted = s.suffixAccepted
  calls : s'.calls = s.calls
  initial : s'.initial = s.initial
  nativeProposed : s'.nativeProposed
    = s.nativeProposed + ((ids.filterMap s'.proposalOf).map Proposal.native).sum
  suffixProposed : short = false → s'.suffixProposed
    = s.suffixProposed + ((ids.filterMap s'.proposalOf).map Proposal.tail).sum
  estimate : ∀ id p, s'.previous.lookup id = some p → s.EstimateFrom (s.previous.lookup id) p

section steps
variable [F64] {decide : Decide} {accepted : Option (List ℤ)}
  {same : List Token → List Token → Bool} {rows : List (List Token)} {i : ℕ} {s s' : HybridMixer}
  {batch : List (ReqId × List Token)} {drafts : List (List Token)}

lemma Steps.counts (h : Steps decide accepted same rows i s batch drafts s') (hinv : s.cache.Inv)
    (hd : decide.Compares same rows) (hnodup : (batch.map Prod.fst).Nodup)
    (ha : ∀ v, accepted = some v → i + batch.length ≤ v.length) :
    LoopCounts s (anyShortOverlay decide accepted i batch s) (batch.map Prod.fst) s' := by
  induction h with
  | nil i s => exact ⟨rfl, rfl, rfl, rfl, rfl, rfl, rfl, fun _ => rfl, fun id p hp => Or.inr ⟨p, hp, rfl⟩⟩
  | @cons i s t s' id native draft row batch drafts hrow hrun hstep hrest ih =>
    rw [List.map_cons, List.nodup_cons] at hnodup
    have hr := row_counts hinv hd hrow
      (fun v hv => by have := ha v hv; rw [List.length_cons] at this; omega) hrun
    have hl := ih hstep.cache hnodup.2 (fun v hv => by
      have := ha v hv
      rw [List.length_cons] at this
      omega)
    obtain ⟨p, hp, hprop, _⟩ := hstep.previous
    have hlast : s'.previous.lookup id = some p := by
      rw [hrest.lookup_of_notMem hnodup.1, hp, Map.lookup_put_self]
    -- the first proposal of the loop is the one of this row
    have hfirst : (id :: batch.map Prod.fst).filterMap s'.proposalOf
        = ⟨s'.calls, id, lcp draft native, draft.length⟩ ::
          (batch.map Prod.fst).filterMap s'.proposalOf := by
      rw [List.filterMap_cons, proposalOf, hlast, Option.map_some, hprop.native, hprop.length]
    exact {
      nativeTested := hl.nativeTested.trans hr.nativeTested
      nativeAccepted := hl.nativeAccepted.trans hr.nativeAccepted
      suffixTested := hl.suffixTested.trans hr.suffixTested
      suffixAccepted := hl.suffixAccepted.trans hr.suffixAccepted
      calls := hl.calls.trans hr.calls
      initial := hl.initial.trans hr.initial
      nativeProposed := by
        rw [List.map_cons, hfirst, hl.nativeProposed, hr.nativeProposed, List.map_cons,
          List.sum_cons, add_assoc]
      suffixProposed := fun hfill => by
        simp only [anyShortOverlay, hrun, Bool.or_eq_false_iff] at hfill
        rw [List.map_cons, hfirst, hl.suffixProposed hfill.2, hr.suffixProposed hfill.1,
          List.map_cons, List.sum_cons, add_assoc]
        rfl
      estimate := fun id' q hq => by
        by_cases hid : id' ∈ batch.map Prod.fst
        · have hne : id' ≠ id := fun heq => hnodup.1 (heq ▸ hid)
          rcases hl.estimate id' q hq with hinit | ⟨r, hr', hest⟩
          · exact Or.inl (by rw [hinit, hr.initial])
          · rw [hp, Map.lookup_put_ne _ _ hne] at hr'
            exact Or.inr ⟨r, hr', hest⟩
        · rw [hrest.lookup_of_notMem hid] at hq
          by_cases hid' : id' = id
          · subst hid'
            exact hr.estimate q hq
          · rw [hp, Map.lookup_put_ne _ _ hid'] at hq
            exact Or.inr ⟨q, hq, rfl⟩ }

end steps

/-! ## Calls -/

/-- What a call does to the counters. -/
structure CallCounts (s : HybridMixer) (gs : List Grading) (ps : List Proposal) (short : Bool)
    (s' : HybridMixer) : Prop where
  nativeTested : s'.nativeTested = s.nativeTested + (gs.map Grading.nativeTested).sum
  nativeAccepted : s'.nativeAccepted = s.nativeAccepted + (gs.map Grading.nativeAccepted).sum
  suffixTested : s'.suffixTested = s.suffixTested + (gs.map Grading.suffixTested).sum
  suffixAccepted : s'.suffixAccepted = s.suffixAccepted + (gs.map Grading.suffixAccepted).sum
  nativeProposed : s'.nativeProposed = s.nativeProposed + (ps.map Proposal.native).sum
  suffixProposed : short = false → s'.suffixProposed = s.suffixProposed + (ps.map Proposal.tail).sum

/-- An accepted call charges its gradings and counts its proposals. An estimate after it was graded from
one before it, or is the initial one. -/
theorem Accepts.counts [F64] {o : HashOrder ReqId} {s s' : HybridMixer} {ids : List ReqId}
    {src : Source} {natives drafts : List (List Token)} {accepted : Option (List ℤ)}
    (h : s.Accepts o ids src natives accepted) (hinv : s.Inv)
    (hcall : s.call o ids src natives accepted = some (.ok drafts, s')) :
    s'.calls = s.calls + 1 ∧ s'.initial = s.initial ∧ s'.k = s.k ∧
      (∃ s0, s.start o ids accepted = some s0 ∧
        CallCounts s (s.gradings ids accepted) (ids.filterMap s'.proposalOf)
          (anyShortOverlay (src.classifier ids.length) accepted 0 (ids.zip natives) s0) s') ∧
      ∀ id p, s'.previous.lookup id = some p → p.acceptEstimate = F64.ofNat s.initial ∨
        ∃ q, s.previous.lookup id = some q ∧
          p.acceptEstimate = (gradeAt (feedbackOf ids accepted id) q).acceptEstimate := by
  obtain ⟨s0, drafts', s1, hstart, hmix, hsteps⟩ := mixCore_spec hinv o h.args h.compares
  obtain ⟨s0', hstart', hinv0, hk, _, _, _, _, hslots⟩ := start_spec hinv o h.args.nodup accepted
  obtain rfl : s0 = s0' := Option.some.inj (hstart.symm.trans hstart')
  rw [h.eq, hmix] at hcall
  cases hcall
  have hfst : (ids.zip natives).map Prod.fst = ids := List.map_fst_zip h.args.natives_length.ge
  have hzip : (ids.zip natives).length = ids.length := by
    rw [List.length_zip, h.args.natives_length, Nat.min_self]
  have hl := hsteps.counts hinv0.cache h.compares (by rw [hfst]; exact h.args.nodup) (fun v hv => by
    rw [hzip, Nat.zero_add, h.args.accepted_length v hv])
  rw [hfst] at hl
  -- the departures between the feedback and the row loop do not count
  obtain ⟨cache, previous, hdep, _⟩ := depart_spec (hinv.feedback h.args.nodup accepted).cache o ids
  have hs0 : s0 = { s.feedback ids accepted with cache, previous, lastNative := [] } := by
    rw [start, hdep] at hstart
    exact (Option.some.inj hstart).symm
  have hf := feedback_charged s h.args.nodup accepted
  have hsame := feedback_same s ids accepted
  refine ⟨?_, ?_, hsteps.settings.1.trans hk, ⟨s0, hstart, ?_⟩, ?_⟩
  · dsimp only
    rw [hl.calls, hs0, ← hf.calls]
  · dsimp only
    rw [hl.initial, hs0, ← hsame.initial]
  · -- the number of the call in a proposal does not count either
    have hparts {β : Type} (f : ℕ → ℕ → β) :
        ((ids.filterMap ({ s1 with calls := s1.calls + 1 } : HybridMixer).proposalOf).map
            fun q => f q.native q.length)
          = (ids.filterMap s1.proposalOf).map fun q => f q.native q.length := by
      simp only [List.map_filterMap, proposalOf, Option.map_map, Function.comp_def]
    exact {
      nativeTested := by rw [← hf.nativeTested]; dsimp only; rw [hl.nativeTested, hs0]
      nativeAccepted := by rw [← hf.nativeAccepted]; dsimp only; rw [hl.nativeAccepted, hs0]
      suffixTested := by rw [← hf.suffixTested]; dsimp only; rw [hl.suffixTested, hs0]
      suffixAccepted := by rw [← hf.suffixAccepted]; dsimp only; rw [hl.suffixAccepted, hs0]
      nativeProposed := by
        have hsum := hparts fun native _ => native
        rw [← hf.nativeProposed]
        dsimp only
        rw [hl.nativeProposed, hs0]
        exact congrArg (fun l => (s.feedback ids accepted).nativeProposed + l.sum) hsum.symm
      suffixProposed := fun hfill => by
        have hsum := hparts fun native length => length - native
        rw [← hf.suffixProposed]
        dsimp only
        rw [hl.suffixProposed hfill, hs0]
        exact congrArg (fun l => (s.feedback ids accepted).suffixProposed + l.sum) hsum.symm }
  · intro id p hp
    rcases hl.estimate id p hp with hinit | ⟨q, hq, hest⟩
    · left
      rw [hinit, hs0, ← hsame.initial]
    · right
      rw [hslots] at hq
      split at hq
      · obtain ⟨r, hr, rfl⟩ := Option.map_eq_some_iff.mp hq
        exact ⟨r, hr, hest⟩
      · cases hq

/-! ## The books of a run -/

/-- An accepted call lays a short candidate over a native draft. -/
def opShortOverlay [F64] (s : HybridMixer) : Op → Bool
  | .call o ids src natives accepted =>
    match s.call o ids src natives accepted, s.start o ids accepted with
    | some (.ok _, _), some s0 =>
      anyShortOverlay (src.classifier ids.length) accepted 0 (ids.zip natives) s0
    | _, _ => false
  | _ => false

/-- No candidate that an operation lays over a native draft is shorter than the draft. -/
def FillsDrafts [F64] (s : HybridMixer) (operation : Op) : Prop := s.opShortOverlay operation = false

instance [F64] (s : HybridMixer) (operation : Op) : Decidable (s.FillsDrafts operation) :=
  inferInstanceAs (Decidable (_ = _))

/-- The counters of a mixer against the gradings and the proposals of its run. -/
structure Books (s : HybridMixer) (gs : List Grading) (ps : List Proposal) : Prop where
  nativeTested : s.nativeTested = (gs.map Grading.nativeTested).sum
  nativeAccepted : s.nativeAccepted = (gs.map Grading.nativeAccepted).sum
  suffixTested : s.suffixTested = (gs.map Grading.suffixTested).sum
  suffixAccepted : s.suffixAccepted = (gs.map Grading.suffixAccepted).sum
  nativeProposed : s.nativeProposed = (ps.map Proposal.native).sum
  tracked : ∀ id q, s.proposalOf id = some q → q ∈ ps
  proposals : (ps.map Proposal.key).Nodup
  call_le : ∀ q ∈ ps, q.call ≤ s.calls
  gradings : (gs.map fun g => g.proposal.key).Nodup
  graded : ∀ g ∈ gs, g.proposal ∈ ps ∧ g.proposal.call < s.calls ∧ g.accepted ≤ g.proposal.length

/-- Distinct entries of a list sum up to no more than all of them. -/
lemma sum_map_le {α : Type} {l m : List α} (hl : l.Nodup) (hsub : l ⊆ m) (f : α → ℕ) :
    (l.map f).sum ≤ (m.map f).sum := by
  obtain ⟨l', hperm, hsublist⟩ := hl.subperm hsub
  rw [← (hperm.map f).sum_eq]
  exact (hsublist.map f).sum_le_sum fun _ _ => Nat.zero_le _

/-- The counters are ordered, as far as they only depend on the books. -/
lemma Books.ordered {s : HybridMixer} {gs : List Grading} {ps : List Proposal} (h : s.Books gs ps) :
    s.nativeAccepted ≤ s.nativeTested ∧ s.nativeTested ≤ s.nativeProposed ∧
      s.suffixAccepted ≤ s.suffixTested ∧ s.suffixTested ≤ (ps.map Proposal.tail).sum := by
  have hnodup : (gs.map Grading.proposal).Nodup := by
    apply List.Nodup.of_map Proposal.key
    rw [List.map_map]
    exact h.gradings
  have hsub : gs.map Grading.proposal ⊆ ps := by
    intro q hq
    obtain ⟨g, hg, rfl⟩ := List.mem_map.mp hq
    exact (h.graded g hg).1
  have hle (g : Grading) (hg : g ∈ gs) := Grading.ordered (h.graded g hg).2.2
  rw [h.nativeAccepted, h.nativeTested, h.suffixAccepted, h.suffixTested, h.nativeProposed]
  refine ⟨?_, ?_, ?_, ?_⟩
  · exact List.sum_le_sum fun g hg => (hle g hg).1
  · calc (gs.map Grading.nativeTested).sum
        ≤ (gs.map fun g => g.proposal.native).sum := List.sum_le_sum fun g hg => (hle g hg).2.1
      _ = ((gs.map Grading.proposal).map Proposal.native).sum := by rw [List.map_map]; rfl
      _ ≤ (ps.map Proposal.native).sum := sum_map_le hnodup hsub _
  · exact List.sum_le_sum fun g hg => (hle g hg).2.2.1
  · calc (gs.map Grading.suffixTested).sum
        ≤ (gs.map fun g => g.proposal.tail).sum := List.sum_le_sum fun g hg => (hle g hg).2.2.2
      _ = ((gs.map Grading.proposal).map Proposal.tail).sum := by rw [List.map_map]; rfl
      _ ≤ (ps.map Proposal.tail).sum := sum_map_le hnodup hsub _

lemma proposalOf_eq_some {s : HybridMixer} {id : ReqId} {q : Proposal} :
    s.proposalOf id = some q ↔
      ∃ p, s.previous.lookup id = some p ∧ q = ⟨s.calls, id, p.native, p.length⟩ := by
  rw [proposalOf, Option.map_eq_some_iff]
  constructor
  · rintro ⟨p, hp, rfl⟩
    exact ⟨p, hp, rfl⟩
  · rintro ⟨p, hp, rfl⟩
    exact ⟨p, hp, rfl⟩

lemma gradingOf_eq_some {s : HybridMixer} {e : ReqId × ℤ} {g : Grading} :
    s.gradingOf e = some g ↔
      0 ≤ e.2 ∧ ∃ p, s.previous.lookup e.1 = some p ∧ g = ⟨⟨s.calls, e.1, p.native, p.length⟩, e.2.toNat⟩ := by
  unfold gradingOf
  split
  case isTrue hneg => simp [hneg]
  case isFalse hneg =>
    rw [Option.map_eq_some_iff]
    constructor
    · rintro ⟨q, hq, rfl⟩
      obtain ⟨p, hp, rfl⟩ := proposalOf_eq_some.mp hq
      exact ⟨not_lt.mp hneg, p, hp, rfl⟩
    · rintro ⟨_, p, hp, rfl⟩
      exact ⟨_, proposalOf_eq_some.mpr ⟨p, hp, rfl⟩, rfl⟩

/-- The proposals of a call are its own, one a request. -/
lemma proposals_nodup (s : HybridMixer) {ids : List ReqId} (hids : ids.Nodup) :
    ((ids.filterMap s.proposalOf).map Proposal.key).Nodup := by
  apply List.Nodup.of_map Prod.snd
  rw [List.map_map]
  have hsub : ((ids.filterMap s.proposalOf).map Proposal.id).Sublist (ids.map id) := by
    apply map_filterMap_sublist
    intro id q hq
    obtain ⟨p, _, rfl⟩ := proposalOf_eq_some.mp hq
    rfl
  rw [List.map_id] at hsub
  exact hids.sublist hsub

/-- The gradings of a call are of different proposals. -/
lemma gradings_nodup (s : HybridMixer) {ids : List ReqId} (hids : ids.Nodup)
    (accepted : Option (List ℤ)) :
    ((s.gradings ids accepted).map fun g => g.proposal.key).Nodup := by
  cases accepted with
  | none => exact List.nodup_nil
  | some v =>
    apply List.Nodup.of_map Prod.snd
    rw [List.map_map]
    have hsub : (((ids.zip v).filterMap s.gradingOf).map fun g => g.proposal.id).Sublist
        ((ids.zip v).map Prod.fst) := by
      apply map_filterMap_sublist
      intro e g hg
      obtain ⟨_, p, _, rfl⟩ := gradingOf_eq_some.mp hg
      rfl
    exact (hids.sublist (zip_fst_sublist ids v)).sublist hsub

/-- Feedback that passed the checks grades tracked proposals, within their length. -/
lemma Admissible.graded {s : HybridMixer} {ids : List ReqId} {natives : List (List Token)}
    {accepted : Option (List ℤ)} {rows : List (List Token)}
    (h : s.Admissible ids natives accepted rows) {g : Grading} (hg : g ∈ s.gradings ids accepted) :
    (∃ id, s.proposalOf id = some g.proposal) ∧ g.proposal.call = s.calls ∧
      g.accepted ≤ g.proposal.length := by
  cases accepted with
  | none => simp [gradings] at hg
  | some v =>
    obtain ⟨e, he, hgrade⟩ := List.mem_filterMap.mp hg
    obtain ⟨hpos, p, hp, rfl⟩ := gradingOf_eq_some.mp hgrade
    have hle := (h.feedback v rfl e.1 e.2 he).2 p hp
    refine ⟨⟨e.1, proposalOf_eq_some.mpr ⟨p, hp, rfl⟩⟩, rfl, ?_⟩
    dsimp only
    omega

/-- The keys of a new call are none of the old ones. -/
lemma nodup_append_calls {old now : List (ℕ × ReqId)} {n : ℕ} (hold : old.Nodup) (hnow : now.Nodup)
    (hlt : ∀ key ∈ old, key.1 < n) (hge : ∀ key ∈ now, n ≤ key.1) : (old ++ now).Nodup := by
  rw [List.nodup_append]
  refine ⟨hold, hnow, fun key hkey key' hkey' heq => ?_⟩
  have hcontra : n < n := calc
    n ≤ key'.1 := hge key' hkey'
    _ = key.1 := congrArg Prod.fst heq.symm
    _ < n := hlt key hkey
  exact lt_irrefl n hcontra

/-- An operation keeps the books. -/
lemma Books.step [F64] {s s' : HybridMixer} {gs : List Grading} {ps : List Proposal}
    (h : s.Books gs ps) (hinv : s.Inv) {operation : Op} (hop : s.op operation = some s') :
    s'.Books (gs ++ s.opGradings operation) (ps ++ s.opProposals operation) ∧
      (s.FillsDrafts operation → s.suffixProposed = (ps.map Proposal.tail).sum →
        s'.suffixProposed = ((ps ++ s.opProposals operation).map Proposal.tail).sum) := by
  cases operation with
  | addSequence tokens | addPrompt tokens =>
    obtain ⟨cache, _, rfl⟩ := Option.map_eq_some_iff.mp hop
    simp only [opGradings, opProposals, List.append_nil]
    exact ⟨⟨h.nativeTested, h.nativeAccepted, h.suffixTested, h.suffixAccepted, h.nativeProposed,
      h.tracked, h.proposals, h.call_le, h.gradings, h.graded⟩, fun _ hsum => hsum⟩
  | call o ids src natives accepted =>
    obtain ⟨⟨r, t⟩, hcall, rfl⟩ := Option.map_eq_some_iff.mp hop
    rcases call_cases o s ids src natives accepted with ⟨e, he⟩ | hacc
    · rw [he] at hcall
      cases hcall
      simp only [opGradings, opProposals, he, List.append_nil]
      exact ⟨h, fun _ hsum => hsum⟩
    · obtain ⟨drafts, t', hcall', _, _, _, hkeys, _⟩ := hacc.rows hinv
      rw [hcall] at hcall'
      cases hcall'
      obtain ⟨hcalls, _, _, ⟨s0, hstart, hc⟩, _⟩ := hacc.counts hinv hcall
      have hnew (q : Proposal) (hq : q ∈ ids.filterMap t.proposalOf) : q.call = s.calls + 1 := by
        obtain ⟨id, _, hid⟩ := List.mem_filterMap.mp hq
        obtain ⟨p, _, rfl⟩ := proposalOf_eq_some.mp hid
        exact hcalls
      have hgs : s.opGradings (.call o ids src natives accepted) = s.gradings ids accepted := by
        simp only [opGradings, hcall]
      have hps : s.opProposals (.call o ids src natives accepted) = ids.filterMap t.proposalOf := by
        simp only [opProposals, hcall]
      rw [hgs, hps]
      dsimp only
      refine ⟨?_, fun hfill hsum => ?_⟩
      · exact {
          nativeTested := by
            rw [hc.nativeTested, h.nativeTested, List.map_append, List.sum_append]
          nativeAccepted := by
            rw [hc.nativeAccepted, h.nativeAccepted, List.map_append, List.sum_append]
          suffixTested := by
            rw [hc.suffixTested, h.suffixTested, List.map_append, List.sum_append]
          suffixAccepted := by
            rw [hc.suffixAccepted, h.suffixAccepted, List.map_append, List.sum_append]
          nativeProposed := by
            rw [hc.nativeProposed, h.nativeProposed, List.map_append, List.sum_append]
          tracked := fun id q hq => by
            obtain ⟨p, hp, _⟩ := proposalOf_eq_some.mp hq
            have hid : id ∈ ids := (hkeys id).mp (Map.mem_of_lookup hp)
            exact List.mem_append_right _ (List.mem_filterMap.mpr ⟨id, hid, hq⟩)
          proposals := by
            rw [List.map_append]
            apply nodup_append_calls h.proposals (proposals_nodup t hacc.args.nodup)
            · intro key hkey
              obtain ⟨q, hq, rfl⟩ := List.mem_map.mp hkey
              exact Nat.lt_succ_of_le (h.call_le q hq)
            · intro key hkey
              obtain ⟨q, hq, rfl⟩ := List.mem_map.mp hkey
              exact (hnew q hq).ge
          call_le := fun q hq => by
            rcases List.mem_append.mp hq with hold | hnow
            · have hle := h.call_le q hold
              omega
            · have hcall' := hnew q hnow
              omega
          gradings := by
            rw [List.map_append]
            apply nodup_append_calls h.gradings (gradings_nodup s hacc.args.nodup accepted)
            · intro key hkey
              obtain ⟨g, hg, rfl⟩ := List.mem_map.mp hkey
              exact (h.graded g hg).2.1
            · intro key hkey
              obtain ⟨g, hg, rfl⟩ := List.mem_map.mp hkey
              exact (hacc.args.graded hg).2.1.ge
          graded := fun g hg => by
            rcases List.mem_append.mp hg with hold | hnow
            · obtain ⟨hmem, hlt, hle⟩ := h.graded g hold
              exact ⟨List.mem_append_left _ hmem, by omega, hle⟩
            · obtain ⟨⟨id, hid⟩, hcall', hle⟩ := hacc.args.graded hnow
              exact ⟨List.mem_append_left _ (h.tracked id _ hid), by omega, hle⟩ }
      · simp only [FillsDrafts, opShortOverlay, hcall, hstart] at hfill
        rw [hc.suffixProposed hfill, hsum, List.map_append, List.sum_append]

/-- A run keeps the books. -/
lemma Books.along [F64] {s s' : HybridMixer} {gs : List Grading} {ps : List Proposal}
    (h : s.Books gs ps) (hinv : s.Inv) {ops : List Op} (hrun : run op s ops = some s') :
    s'.Books (gs ++ collect op opGradings s ops) (ps ++ collect op opProposals s ops) ∧
      (Lib.Along op FillsDrafts s ops → s.suffixProposed = (ps.map Proposal.tail).sum →
        s'.suffixProposed = ((ps ++ collect op opProposals s ops).map Proposal.tail).sum) := by
  induction ops generalizing s gs ps with
  | nil =>
    cases hrun
    simpa using h
  | cons operation ops ih =>
    rw [run_cons, Option.bind_eq_some_iff] at hrun
    obtain ⟨t, hop, hrest⟩ := hrun
    obtain ⟨hbooks, hsum⟩ := h.step hinv hop
    obtain ⟨hbooks', hsum'⟩ := ih hbooks (hinv.op hop) hrest
    rw [collect_cons opGradings hop, collect_cons opProposals hop, ← List.append_assoc,
      ← List.append_assoc]
    exact ⟨hbooks', fun hfills h0 => hsum' (hfills.2 t hop) (hsum hfills.1 h0)⟩

/-! ## The estimates -/

/-- The estimates of a mixer lie between zero and its budget `k`. -/
structure Estimates (s : HybridMixer) (k : ℕ) : Prop where
  initial : s.initial = k
  k_eq : s.k = k
  k_le : k ≤ 64
  between : ∀ id p, s.previous.lookup id = some p → 0 ≤ p.acceptEstimate ∧ p.acceptEstimate ≤ k

lemma ofNat_eq {n : ℕ} (h : n ≤ 64) : F64.ofNat n = n := F64.ofNat_of_lt (by omega)

/-- Feedback on a proposal keeps an estimate between zero and a budget that the proposal fits. -/
lemma gradeAt_between {p : Previous} {k : ℕ} (hlen : p.length ≤ k) (hk : k ≤ 64)
    (h : 0 ≤ p.acceptEstimate ∧ p.acceptEstimate ≤ k) (a : ℤ) :
    0 ≤ (gradeAt a p).acceptEstimate ∧ (gradeAt a p).acceptEstimate ≤ k := by
  unfold gradeAt
  split
  · exact h
  · unfold grade
    split
    · dsimp only
      split
      case isTrue hfull =>
        rw [ofNat_eq (hlen.trans hk)]
        exact ⟨Nat.cast_nonneg _, by exact_mod_cast hlen⟩
      case isFalse hfew =>
        -- a proposal that is not accepted in full leaves room below the budget
        have hlt : a.toNat + 1 ≤ k := by omega
        have hcast : (a.toNat : ℚ) + 1 ≤ k := by exact_mod_cast hlt
        have hk' : (k : ℚ) ≤ 64 := by exact_mod_cast hk
        rw [ofNat_eq (by omega)]
        exact F64.roundBinary64_average_mem h.1 h.2 (Nat.cast_nonneg _) (by linarith) hk'
    · exact h

/-- An operation keeps the estimates in their range. -/
lemma Estimates.step {s s' : HybridMixer} {k : ℕ} (h : s.Estimates k) (hinv : s.Inv) {operation : Op}
    (hop : s.op operation = some s') : s'.Estimates k := by
  cases operation with
  | addSequence tokens | addPrompt tokens =>
    obtain ⟨cache, _, rfl⟩ := Option.map_eq_some_iff.mp hop
    exact ⟨h.initial, h.k_eq, h.k_le, h.between⟩
  | call o ids src natives accepted =>
    obtain ⟨⟨r, t⟩, hcall, rfl⟩ := Option.map_eq_some_iff.mp hop
    rcases call_cases o s ids src natives accepted with ⟨e, he⟩ | hacc
    · rw [he] at hcall
      cases hcall
      exact h
    · obtain ⟨drafts, t', hcall', _⟩ := hacc.rows hinv
      rw [hcall] at hcall'
      cases hcall'
      obtain ⟨_, hinitial, hk, _, hest⟩ := hacc.counts hinv hcall
      refine ⟨hinitial.trans h.initial, hk.trans h.k_eq, h.k_le, fun id p hp => ?_⟩
      rcases hest id p hp with hinit | ⟨q, hq, heq⟩
      · rw [hinit, h.initial, ofNat_eq h.k_le]
        exact ⟨Nat.cast_nonneg _, le_rfl⟩
      · have hlen := (hinv.previous id q hq).length_le
        rw [h.k_eq] at hlen
        rw [heq]
        exact gradeAt_between hlen h.k_le (h.between id q hq) _

lemma Estimates.along {s s' : HybridMixer} {k : ℕ} (h : s.Estimates k) (hinv : s.Inv) {ops : List Op}
    (hrun : run op s ops = some s') : s'.Estimates k := by
  have hkeep : ∀ t operation t', t.Estimates k ∧ t.Inv → op t operation = some t' →
      t'.Estimates k ∧ t'.Inv := fun _ _ _ h hop => ⟨h.1.step h.2 hop, h.2.op hop⟩
  exact (run_inv hkeep ⟨h, hinv⟩ hrun).1

lemma pick_between [F64] (s : HybridMixer) (estimate : Option ℚ) :
    1 ≤ s.pick estimate ∧ s.pick estimate ≤ s.k := by
  have hk := s.k_pos
  unfold pick
  omega

/-! ## Whole runs -/

lemma books_empty (cfg : Config) (env : MixerEnv) (k maxModelLen : ℕ) (hk : 0 < k) :
    (empty cfg env k maxModelLen hk).Books [] [] where
  nativeTested := rfl
  nativeAccepted := rfl
  suffixTested := rfl
  suffixAccepted := rfl
  nativeProposed := rfl
  tracked := fun id q hq => by
    obtain ⟨p, hp, _⟩ := proposalOf_eq_some.mp hq
    simp [empty] at hp
  proposals := List.nodup_nil
  call_le := by simp
  gradings := List.nodup_nil
  graded := by simp

lemma estimates_empty (cfg : Config) (env : MixerEnv) {k : ℕ} (maxModelLen : ℕ) (hk : 0 < k)
    (hk' : k ≤ 64) : (empty cfg env k maxModelLen hk).Estimates k where
  initial := rfl
  k_eq := rfl
  k_le := hk'
  between := fun id p hp => by simp [empty] at hp

/-- The accounting of a run. The counters are the sums over the gradings of the run, each of which is of
a proposal of its own. They are ordered, up to the tested and the proposed suffix tokens, which are
ordered if no candidate of the divergence split is shorter than the draft it is laid over. -/
theorem accounting_conserved {cfg : Config} {env : MixerEnv} {k maxModelLen : ℕ} {s s' : HybridMixer}
    (hnew : HybridMixer.new cfg env k maxModelLen = .ok s) {ops : List Op}
    (hrun : run op s ops = some s') :
    s'.nativeAccepted ≤ s'.nativeTested ∧ s'.nativeTested ≤ s'.nativeProposed ∧
      s'.suffixAccepted ≤ s'.suffixTested ∧
      (Lib.Along op FillsDrafts s ops → s'.suffixTested ≤ s'.suffixProposed) ∧
      s'.Books (collect op opGradings s ops) (collect op opProposals s ops) ∧
      (∀ g ∈ collect op opGradings s ops, g.nativeAccepted + g.suffixAccepted = g.accepted ∧
        g.nativeTested + g.suffixTested = min (g.accepted + 1) g.proposal.length) ∧
      (∀ id p, s'.previous.lookup id = some p →
        0 ≤ p.acceptEstimate ∧ p.acceptEstimate ≤ k) ∧
      ∀ estimate, 1 ≤ s'.pick estimate ∧ s'.pick estimate ≤ k := by
  have hinv := inv_new hnew
  unfold HybridMixer.new at hnew
  split at hnew
  case isFalse => cases hnew
  case isTrue hargs =>
    obtain rfl := Except.ok.inj hnew
    obtain ⟨hbooks, hsum⟩ := (books_empty cfg env k maxModelLen hargs.1.1).along hinv hrun
    rw [List.nil_append] at hbooks
    have hest := (estimates_empty cfg env maxModelLen hargs.1.1 hargs.1.2).along hinv hrun
    obtain ⟨h1, h2, h3, h4⟩ := hbooks.ordered
    refine ⟨h1, h2, h3, fun hfills => ?_, hbooks, fun g _ => g.parts, hest.between, ?_⟩
    · rw [hsum hfills rfl]
      exact h4
    · intro estimate
      rw [← hest.k_eq]
      exact s'.pick_between estimate

/-- A request whose second draft is a candidate that fills it. -/
def filledOps : List Op :=
  [.addSequence [1, 2, 8, 3, 5, 6, 7],
    .call (HashOrder.stored ReqId) ["a"] (.lists [[1, 2]]) [[9, 9, 9]] none,
    .call (HashOrder.stored ReqId) ["a"] (.lists [[1, 2, 8, 3]]) [[9, 9, 9]] (some [0]),
    .call (HashOrder.stored ReqId) ["a"] (.lists [[1, 2, 8, 3, 5, 6, 4]]) [[9, 9, 9]] (some [2])]

/-- Three suffix tokens were proposed and three of them tested. -/
theorem accounting_conserved_filled :
    ∃ s', run op (empty (Config.ofN 1 (by decide)) { diverge := true } 3 100 (by decide)) filledOps
        = some s' ∧ s'.suffixTested = 3 ∧ s'.suffixTested ≤ s'.suffixProposed := by
  have hview : ((run op (empty (Config.ofN 1 (by decide)) { diverge := true } 3 100 (by decide))
      filledOps).map fun s => s.suffixTested) = some 3 := by with_unfolding_all decide
  obtain ⟨s', hrun, htested⟩ := Option.map_eq_some_iff.mp hview
  have hfills : Lib.Along op FillsDrafts
      (empty (Config.ofN 1 (by decide)) { diverge := true } 3 100 (by decide)) filledOps := by
    with_unfolding_all decide
  have hnew : new (Config.ofN 1 (by decide)) { diverge := true } 3 100
      = .ok (empty (Config.ofN 1 (by decide)) { diverge := true } 3 100 (by decide)) := by
    simp [new, empty]
  exact ⟨s', hrun, htested, (accounting_conserved hnew hrun).2.2.2.1 hfills⟩

/-- The same request with a candidate of one token for a draft of three. -/
def fillerOps : List Op :=
  [.addSequence [1, 2, 8, 3, 5],
    .call (HashOrder.stored ReqId) ["a"] (.lists [[1, 2]]) [[9, 9, 9]] none,
    .call (HashOrder.stored ReqId) ["a"] (.lists [[1, 2, 8, 3]]) [[9, 9, 9]] (some [0])]

/-- Three suffix tokens are tested and only one was proposed: the others are native filler behind the
candidate. -/
theorem filler_tested :
    ∃ s s', Reachable s ∧
      s.call (HashOrder.stored ReqId) ["a"] (.lists [[1, 2, 8, 3, 5, 9, 9, 6]]) [[9, 9, 9]] (some [3])
        = some (.ok [[9, 9, 9]], s') ∧
      s'.suffixProposed = 1 ∧ s'.suffixTested = 3 := by
  obtain ⟨s, s', hs, hcall, hview⟩ := Reachable.exists_call (Config.ofN 1 (by decide))
    { diverge := true } 3 100 (by decide) (by decide) fillerOps (HashOrder.stored ReqId) ["a"]
    (.lists [[1, 2, 8, 3, 5, 9, 9, 6]]) [[9, 9, 9]] (some [3]) [[9, 9, 9]]
    (fun _ s' => (s'.suffixProposed, s'.suffixTested)) (1, 3) (by with_unfolding_all decide)
  obtain ⟨hproposed, htested⟩ := Prod.mk.inj hview
  exact ⟨s, s', hs, hcall, hproposed, htested⟩

end HybridMixer
end SuffixHybrid
