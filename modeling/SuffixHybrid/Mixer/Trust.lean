import Mathlib.Tactic.Linarith
import SuffixHybrid.Mixer.Accounting

/-!
# The trust of the divergence split

A disagreement is what a diverge row records where its candidate and its native draft part. The next
call reads the verified token at that position (`Verdict`), once, since it also replaces or drops the
record. `Trust` states that over a run: the evidence of the buckets is the fold of `observe` over the
verdicts, and every verdict is on a disagreement of its own that the call before recorded
(`trust_graded`). The bound on the evidence is the limit of the geometric series of the discount.
-/

namespace SuffixHybrid
open Lib

/-- A divergence that a call recorded for a request, with the context of its proposal. -/
structure Disagreement where
  call : ℕ
  id : ReqId
  context : List Token
  div : Divergence
  deriving DecidableEq

/-- The call and the request of a disagreement. -/
def Disagreement.key (q : Disagreement) : ℕ × ReqId := (q.call, q.id)

/-- The token that decides a disagreement, in the row of its request in a later call. -/
structure Verdict where
  disagreement : Disagreement
  call : ℕ
  accepted : ℤ
  row : List Token
  truth : Token
  deriving DecidableEq

/-- A verdict on a recorded disagreement: the next call makes it, if the verifier reached the position,
and reads the token that the target emitted there. -/
structure Verdict.Decides (v : Verdict) (calls : ℕ) (qs : List Disagreement) : Prop where
  recorded : v.disagreement ∈ qs
  next : v.call = v.disagreement.call + 1
  call_le : v.call ≤ calls
  reached : v.disagreement.div.j ≤ v.accepted
  truth : ∃ emitted, v.row = v.disagreement.context ++ emitted ∧
    emitted[v.disagreement.div.j]? = some v.truth

/-- A verdict is evidence for the bucket of its disagreement. -/
def Verdict.weigh [F64] (wins : Fin divBuckets → ℚ × ℚ) (v : Verdict) : Fin divBuckets → ℚ × ℚ :=
  let d := v.disagreement.div
  Function.update wins d.bucket (HybridMixer.observe (wins d.bucket) d v.truth)

namespace HybridMixer

/-! ## Disagreements and verdicts -/

/-- The disagreement that a mixer tracks for a request. -/
def disagreementOf (s : HybridMixer) (id : ReqId) : Option Disagreement :=
  (s.previous.lookup id).bind fun p => p.div.map fun d => ⟨s.calls, id, p.context, d⟩

/-- The verdict of a row on the disagreement that the mixer tracks for its request: the row continues
the context, and the verifier reached the position. -/
def verdictOf (s : HybridMixer) (same : List Token → List Token → Bool) (accepted : ℤ)
    (row : List Token) (id : ReqId) : Option Verdict := do
  let q ← s.disagreementOf id
  if same q.context row ∧ accepted ≥ q.div.j then
    (row[q.context.length + q.div.j]?).map fun truth => ⟨q, s.calls + 1, accepted, row, truth⟩
  else none

/-- The verdicts of the rows of a batch, from row `i` on. -/
def verdicts (s : HybridMixer) (same : List Token → List Token → Bool) (accepted : Option (List ℤ))
    (rows : List (List Token)) (i : ℕ) (ids : List ReqId) : List Verdict :=
  (ids.zipIdx i).filterMap fun e => rows[e.2]?.bind fun row =>
    s.verdictOf same (feedbackAt accepted e.2) row e.1

/-- The disagreements that an operation records. -/
def opDisagreements [F64] (s : HybridMixer) : Op → List Disagreement
  | .call o ids src natives accepted =>
    match s.call o ids src natives accepted with
    | some (.ok _, s') => ids.filterMap s'.disagreementOf
    | _ => []
  | _ => []

/-- The verdicts of an operation. -/
def opVerdicts [F64] (s : HybridMixer) : Op → List Verdict
  | .call o ids src natives accepted =>
    match s.call o ids src natives accepted with
    | some (.ok _, _) => s.verdicts src.same accepted (src.rows ids.length) 0 ids
    | _ => []
  | _ => []

lemma disagreementOf_eq_some {s : HybridMixer} {id : ReqId} {q : Disagreement} :
    s.disagreementOf id = some q ↔
      ∃ p d, s.previous.lookup id = some p ∧ p.div = some d ∧ q = ⟨s.calls, id, p.context, d⟩ := by
  simp only [disagreementOf, Option.bind_eq_some_iff, Option.map_eq_some_iff]
  constructor
  · rintro ⟨p, hp, d, hd, rfl⟩
    exact ⟨p, d, hp, hd, rfl⟩
  · rintro ⟨p, d, hp, hd, rfl⟩
    exact ⟨p, hp, d, hd, rfl⟩

lemma verdictOf_eq_some {s : HybridMixer} {same : List Token → List Token → Bool} {accepted : ℤ}
    {row : List Token} {id : ReqId} {v : Verdict} :
    s.verdictOf same accepted row id = some v ↔
      ∃ q truth, s.disagreementOf id = some q ∧ same q.context row = true ∧ accepted ≥ q.div.j ∧
        row[q.context.length + q.div.j]? = some truth ∧ v = ⟨q, s.calls + 1, accepted, row, truth⟩ := by
  simp only [verdictOf, Option.bind_eq_bind, Option.bind_eq_some_iff]
  constructor
  · rintro ⟨q, hq, hv⟩
    split at hv
    case isTrue h =>
      obtain ⟨truth, htruth, rfl⟩ := Option.map_eq_some_iff.mp hv
      exact ⟨q, truth, hq, h.1, h.2, htruth, rfl⟩
    case isFalse => cases hv
  · rintro ⟨q, truth, hq, hsame, hle, htruth, rfl⟩
    exact ⟨q, hq, by rw [if_pos ⟨hsame, hle⟩, htruth]; rfl⟩

/-- A verdict reads the mixer through the record of its request. -/
lemma verdictOf_congr {s t : HybridMixer} {id : ReqId} (hq : s.disagreementOf id = t.disagreementOf id)
    (hcalls : s.calls = t.calls) (same : List Token → List Token → Bool) (accepted : ℤ)
    (row : List Token) : s.verdictOf same accepted row id = t.verdictOf same accepted row id := by
  simp only [verdictOf, hq, hcalls]

lemma verdicts_congr {s t : HybridMixer} {ids : List ReqId}
    (hq : ∀ id ∈ ids, s.disagreementOf id = t.disagreementOf id) (hcalls : s.calls = t.calls)
    (same : List Token → List Token → Bool) (accepted : Option (List ℤ)) (rows : List (List Token))
    (i : ℕ) : s.verdicts same accepted rows i ids = t.verdicts same accepted rows i ids := by
  apply List.filterMap_congr
  rintro ⟨id, n⟩ hmem
  have hid : id ∈ ids := List.fst_mem_of_mem_zipIdx hmem
  simp only [verdictOf_congr (hq id hid) hcalls]

lemma verdicts_cons (s : HybridMixer) (same : List Token → List Token → Bool)
    (accepted : Option (List ℤ)) {rows : List (List Token)} {i : ℕ} {row : List Token}
    (hrow : rows[i]? = some row) (id : ReqId) (ids : List ReqId) :
    s.verdicts same accepted rows i (id :: ids)
      = (s.verdictOf same (feedbackAt accepted i) row id).toList ++
        s.verdicts same accepted rows (i + 1) ids := by
  simp only [verdicts, List.zipIdx_cons, List.filterMap_cons, hrow, Option.bind_some]
  cases s.verdictOf same (feedbackAt accepted i) row id <;> rfl

/-! ## The rows -/

/-- What the rows of a call do to the trust: `vs` are their verdicts. -/
structure Weighed [F64] (s : HybridMixer) (vs : List Verdict) (s' : HybridMixer) : Prop where
  divWins : s'.divWins = vs.foldl Verdict.weigh s.divWins
  divObserved : s'.divObserved = s.divObserved + vs.length
  calls : s'.calls = s.calls

lemma Weighed.trans [F64] {s t u : HybridMixer} {vs ws : List Verdict} (h : Weighed s vs t)
    (h' : Weighed t ws u) : Weighed s (vs ++ ws) u where
  divWins := by rw [h'.divWins, h.divWins, List.foldl_append]
  divObserved := by rw [h'.divObserved, h.divObserved, List.length_append, add_assoc]
  calls := h'.calls.trans h.calls

/-- A continuing row weighs its verdict. -/
lemma resolve_weighed [F64] {s opened : HybridMixer} {same : List Token → List Token → Bool}
    {row : List Token} {id : ReqId} {p : Previous} (hp : s.previous.lookup id = some p)
    (hsame : same p.context row = true) {accepted : ℤ}
    (h : s.resolve p.div accepted (row.drop p.context.length) = some opened) :
    Weighed s (s.verdictOf same accepted row id).toList opened := by
  cases hdiv : p.div with
  | none =>
    rw [hdiv] at h
    cases h
    have hnone : s.verdictOf same accepted row id = none := by
      simp [verdictOf, disagreementOf, hp, hdiv]
    rw [hnone]
    exact ⟨rfl, rfl, rfl⟩
  | some d =>
    simp only [resolve, hdiv, List.length_drop] at h
    split at h
    case isTrue hreach =>
      obtain ⟨truth, htruth, heq⟩ := Option.bind_eq_some_iff.mp h
      cases heq
      rw [List.getElem?_drop] at htruth
      have hv : s.verdictOf same accepted row id
          = some ⟨⟨s.calls, id, p.context, d⟩, s.calls + 1, accepted, row, truth⟩ :=
        verdictOf_eq_some.mpr ⟨_, truth, disagreementOf_eq_some.mpr ⟨p, d, hp, hdiv, rfl⟩, hsame,
          hreach.1, htruth, rfl⟩
      rw [hv]
      exact ⟨rfl, rfl, rfl⟩
    case isFalse hreach =>
      cases h
      have hnone : s.verdictOf same accepted row id = none := by
        rw [Option.eq_none_iff_forall_ne_some]
        intro v hv
        obtain ⟨q, truth, hq, _, hle, htruth, _⟩ := verdictOf_eq_some.mp hv
        obtain ⟨p', d', hp', hd', rfl⟩ := disagreementOf_eq_some.mp hq
        cases hp.symm.trans hp'
        cases hdiv.symm.trans hd'
        obtain ⟨hlt, _⟩ := List.getElem?_eq_some_iff.mp htruth
        dsimp only at hle hlt
        exact hreach ⟨hle, by omega⟩
      rw [hnone]
      exact ⟨rfl, rfl, rfl⟩

/-- A row that does not continue its context has no verdict. -/
lemma verdictOf_eq_none {s : HybridMixer} {same : List Token → List Token → Bool} {row : List Token}
    {id : ReqId} (h : ∀ p, s.previous.lookup id = some p → ¬ same p.context row = true)
    (accepted : ℤ) : s.verdictOf same accepted row id = none := by
  rw [Option.eq_none_iff_forall_ne_some]
  intro v hv
  obtain ⟨q, truth, hq, hsame, _⟩ := verdictOf_eq_some.mp hv
  obtain ⟨p, d, hp, _, rfl⟩ := disagreementOf_eq_some.mp hq
  exact h p hp hsame

lemma openRow_weighed [F64] {s opened : HybridMixer} {same : List Token → List Token → Bool}
    {row : List Token} {id : ReqId} {accepted : ℤ} {p : Previous}
    (h : s.openRow (classified same row ((s.previous.lookup id).map (·.context))).1
      (s.previous.lookup id) (classified same row ((s.previous.lookup id).map (·.context))).2 accepted
        = some (opened, p)) :
    Weighed s (s.verdictOf same accepted row id).toList opened ∧ opened.previous = s.previous := by
  cases hslot : s.previous.lookup id with
  | none =>
    rw [hslot] at h
    cases h
    have hnone : s.verdictOf same accepted row id = none :=
      verdictOf_eq_none (fun p hp => by rw [hslot] at hp; cases hp) accepted
    rw [hnone]
    exact ⟨⟨rfl, rfl, rfl⟩, rfl⟩
  | some q =>
    rw [hslot, Option.map_some] at h
    by_cases hsame : same q.context row = true
    · simp only [classified, hsame, if_true, openRow, Option.bind_eq_bind] at h
      obtain ⟨t, ht, heq⟩ := Option.bind_eq_some_iff.mp h
      cases heq
      obtain ⟨wins, observed, hres⟩ := s.resolve_total q.div accepted (row.drop q.context.length)
      refine ⟨resolve_weighed hslot hsame ht, ?_⟩
      rw [hres] at ht
      cases ht
      rfl
    · have hnone : s.verdictOf same accepted row id = none :=
        verdictOf_eq_none (fun p hp => by rw [hslot] at hp; cases hp; exact hsame) accepted
      simp only [classified, if_neg hsame, openRow, reduceCtorEq, if_false,
        Option.bind_eq_bind] at h
      obtain ⟨cache, _, heq⟩ := Option.bind_eq_some_iff.mp h
      cases heq
      rw [hnone]
      exact ⟨⟨rfl, rfl, rfl⟩, rfl⟩

/-- The two tokens of a disagreement that a row records differ. -/
lemma arbitrate_ne [F64] {s : HybridMixer} {native cand : List Token} {bucket : Fin divBuckets}
    {cap n : ℕ} {draft : List Token} {d : Divergence} {overlaid : Bool}
    (hle : cand.length ≤ native.length)
    (h : s.arbitrate native cand bucket cap = some (draft, n, some d, overlaid)) :
    d.suffixTok ≠ d.nativeTok := by
  simp only [arbitrate, firstDiff_eq hle, Nat.zero_add, Option.bind_eq_bind, Option.bind_some] at h
  obtain ⟨kept, _, h⟩ := Option.bind_eq_some_iff.mp h
  split at h
  case h_1 => cases h
  case h_2 j hj =>
    split at hj
    case isFalse => cases hj
    case isTrue hlt =>
      cases hj
      obtain ⟨suffixTok, hs, h⟩ := Option.bind_eq_some_iff.mp h
      obtain ⟨nativeTok, hn, h⟩ := Option.bind_eq_some_iff.mp h
      have hd : d.suffixTok = suffixTok ∧ d.nativeTok = nativeTok := by
        split at h
        · obtain ⟨_, _, heq⟩ := Option.map_eq_some_iff.mp h
          cases heq
          exact ⟨rfl, rfl⟩
        · cases h
          exact ⟨rfl, rfl⟩
      intro heq
      apply getElem?_lcp_ne hlt
      rw [hs, hn, ← hd.1, ← hd.2, heq]

/-- The tokens of the disagreement that a record keeps differ. -/
def Parts (p : Previous) : Prop := ∀ d, p.div = some d → d.suffixTok ≠ d.nativeTok

/-- A diverge row weighs its verdict and records a new disagreement. -/
lemma divergeRow_weighed [F64] {s t : HybridMixer} (hinv : s.cache.Inv) {decide : Decide}
    {same : List Token → List Token → Bool} {rows : List (List Token)}
    (hd : decide.Compares same rows) {i : ℕ} {row : List Token} (hrow : rows[i]? = some row)
    {id : ReqId} {native draft : List Token} {accepted : ℤ}
    (h : s.divergeRow decide i id native accepted = some (draft, t)) :
    Weighed s (s.verdictOf same accepted row id).toList t ∧
      ∃ p, t.previous = s.previous.put id p ∧ Parts p := by
  simp only [divergeRow, hd.eq hrow, Option.bind_eq_bind, Option.bind_some] at h
  obtain ⟨⟨opened, p⟩, hopen, h⟩ := Option.bind_eq_some_iff.mp h
  obtain ⟨⟨cand, matched, selfLookup⟩, hcand, h⟩ := Option.bind_eq_some_iff.mp h
  obtain ⟨⟨draft', n, div, overlaid⟩, harb, h⟩ := Option.bind_eq_some_iff.mp h
  obtain ⟨hw, hprev⟩ := openRow_weighed hopen
  obtain ⟨cache, wins, observed, p', hopen', hcinv, _⟩ :=
    openRow_total hinv same row (s.previous.lookup id) accepted
  rw [hopen, Option.some.injEq, Prod.mk.injEq] at hopen'
  have hcache : opened.cache.Inv := by
    rw [hopen'.1]
    exact hcinv
  obtain ⟨cand', _, _, hcand', hlen⟩ :=
    candidate_total hcache p.context (opened.rowCap p.context.length native)
  rw [hcand, Option.some.injEq, Prod.mk.injEq] at hcand'
  rw [← hcand'.1] at hlen
  cases h
  refine ⟨⟨hw.divWins, hw.divObserved, hw.calls⟩, _, by rw [hprev], ?_⟩
  intro d hd
  subst hd
  exact arbitrate_ne (hlen.trans (rowCap_le_length _ _ _)) harb

section steps
variable [F64] {decide : Decide} {accepted : Option (List ℤ)}
  {same : List Token → List Token → Bool} {rows : List (List Token)} {i : ℕ} {s s' : HybridMixer}
  {batch : List (ReqId × List Token)} {drafts : List (List Token)}

/-- The row loop weighs the verdicts of its rows, each on the record from before the loop. -/
lemma Steps.weighed (h : Steps decide accepted same rows i s batch drafts s') (hinv : s.cache.Inv)
    (hd : decide.Compares same rows) (hnodup : (batch.map Prod.fst).Nodup)
    (ha : ∀ v, accepted = some v → i + batch.length ≤ v.length) (hdiv : s.env.diverge = true)
    (hparts : ∀ id p, s.previous.lookup id = some p → Parts p) :
    Weighed s (s.verdicts same accepted rows i (batch.map Prod.fst)) s' ∧
      ∀ id p, s'.previous.lookup id = some p → Parts p := by
  induction h with
  | nil i s => exact ⟨⟨rfl, rfl, rfl⟩, hparts⟩
  | @cons i s t s' id native draft row batch drafts hrow hrun hstep hrest ih =>
    rw [List.map_cons, List.nodup_cons] at hnodup
    rw [row_diverge hdiv (fun v hv => by
      have := ha v hv
      rw [List.length_cons] at this
      omega)] at hrun
    obtain ⟨hw, p, hp, hparts'⟩ := divergeRow_weighed hinv hd hrow hrun
    obtain ⟨hw', hrest'⟩ := ih hstep.cache hnodup.2 (fun v hv => by
      have := ha v hv
      rw [List.length_cons] at this
      omega) (by rw [hstep.env]; exact hdiv) (fun id' q hq => by
        rw [hp, Map.lookup_put] at hq
        split at hq
        · cases hq
          exact hparts'
        · exact hparts id' q hq)
    -- the rows after this one do not see what it records
    have hsame : t.verdicts same accepted rows (i + 1) (batch.map Prod.fst)
        = s.verdicts same accepted rows (i + 1) (batch.map Prod.fst) := by
      refine verdicts_congr (fun id' hid' => ?_) hw.calls same accepted rows (i + 1)
      have hne : id' ≠ id := fun heq => hnodup.1 (heq ▸ hid')
      simp only [disagreementOf, hp, Map.lookup_put_ne _ _ hne, hw.calls]
    rw [List.map_cons, verdicts_cons s same accepted hrow, ← hsame]
    exact ⟨hw.trans hw', hrest'⟩

end steps

/-! ## Calls -/

/-- The trust counters of a mixer are none of the feedback pass. -/
lemma feedbackRow_trust [F64] (s : HybridMixer) (id : ReqId) (a : ℤ) :
    ((s.feedbackRow id a).divWins, (s.feedbackRow id a).divObserved) = (s.divWins, s.divObserved) := by
  unfold feedbackRow
  split
  · rfl
  · split <;> rfl

lemma feedback_trust [F64] (s : HybridMixer) (ids : List ReqId) (accepted : Option (List ℤ)) :
    (s.feedback ids accepted).divWins = s.divWins ∧
      (s.feedback ids accepted).divObserved = s.divObserved := by
  cases accepted with
  | none => exact ⟨rfl, rfl⟩
  | some v =>
    have hview := foldl_view (fun s : HybridMixer => (s.divWins, s.divObserved))
      (f := fun s (e : ReqId × ℤ) => s.feedbackRow e.1 e.2)
      (fun s e => feedbackRow_trust s e.1 e.2) (ids.zip v) s
    exact ⟨congrArg Prod.fst hview, congrArg Prod.snd hview⟩

/-- The state in which the row loop of a call starts has the trust of the call and tracks the
disagreements of its requests. -/
lemma start_trust [F64] {s s0 : HybridMixer} (hinv : s.Inv) {o : HashOrder ReqId} {ids : List ReqId}
    (hids : ids.Nodup) {accepted : Option (List ℤ)} (hstart : s.start o ids accepted = some s0) :
    s0.divWins = s.divWins ∧ s0.divObserved = s.divObserved ∧ s0.calls = s.calls ∧
      ∀ id, s0.disagreementOf id = if id ∈ ids then s.disagreementOf id else none := by
  obtain ⟨cache, previous, hdep, _⟩ := depart_spec (hinv.feedback hids accepted).cache o ids
  obtain ⟨s0', hstart', _, _, _, _, _, _, hslots⟩ := start_spec hinv o hids accepted
  obtain rfl : s0 = s0' := Option.some.inj (hstart.symm.trans hstart')
  have hs0 : s0 = { s.feedback ids accepted with cache, previous, lastNative := [] } := by
    rw [start, hdep] at hstart
    exact (Option.some.inj hstart).symm
  obtain ⟨hwins, hobserved⟩ := feedback_trust s ids accepted
  have hcalls : s0.calls = s.calls := by
    rw [hs0]
    exact (feedback_charged s hids accepted).calls
  refine ⟨by rw [hs0]; exact hwins, by rw [hs0]; exact hobserved, hcalls, fun id => ?_⟩
  rw [disagreementOf, hslots, hcalls]
  split
  case isFalse => rfl
  case isTrue hid =>
    cases hp : s.previous.lookup id with
    | none => simp [disagreementOf, hp]
    | some p =>
      obtain ⟨hctx, _, _, _, hdiv⟩ := gradeAt_fields (feedbackOf ids accepted id) p
      simp only [disagreementOf, hp, Option.map_some, Option.bind_some, hctx, hdiv]

/-- An accepted call weighs its verdicts. -/
lemma Accepts.weighed [F64] {o : HashOrder ReqId} {s s' : HybridMixer} {ids : List ReqId}
    {src : Source} {natives drafts : List (List Token)} {accepted : Option (List ℤ)}
    (h : s.Accepts o ids src natives accepted) (hinv : s.Inv) (hdiv : s.env.diverge = true)
    (hparts : ∀ id p, s.previous.lookup id = some p → Parts p)
    (hcall : s.call o ids src natives accepted = some (.ok drafts, s')) :
    s'.divWins = (s.verdicts src.same accepted (src.rows ids.length) 0 ids).foldl Verdict.weigh
        s.divWins ∧
      s'.divObserved
        = s.divObserved + (s.verdicts src.same accepted (src.rows ids.length) 0 ids).length ∧
      s'.calls = s.calls + 1 ∧ s'.env = s.env ∧
      ∀ id p, s'.previous.lookup id = some p → Parts p := by
  obtain ⟨s0, drafts', s1, hstart, hmix, hsteps⟩ := mixCore_spec hinv o h.args h.compares
  obtain ⟨s0', hstart', hinv0, _, _, henv, _, _, hslots⟩ := start_spec hinv o h.args.nodup accepted
  obtain rfl : s0 = s0' := Option.some.inj (hstart.symm.trans hstart')
  obtain ⟨hwins, hobserved, hcalls, htracked⟩ := start_trust hinv h.args.nodup hstart
  rw [h.eq, hmix] at hcall
  cases hcall
  have hfst : (ids.zip natives).map Prod.fst = ids := List.map_fst_zip h.args.natives_length.ge
  have hzip : (ids.zip natives).length = ids.length := by
    rw [List.length_zip, h.args.natives_length, Nat.min_self]
  obtain ⟨hw, hparts'⟩ := hsteps.weighed hinv0.cache h.compares
    (by rw [hfst]; exact h.args.nodup)
    (fun v hv => by rw [hzip, Nat.zero_add, h.args.accepted_length v hv])
    (by rw [henv]; exact hdiv) (fun id p hp => by
      rw [hslots] at hp
      split at hp
      case isFalse => cases hp
      case isTrue =>
        obtain ⟨q, hq, rfl⟩ := Option.map_eq_some_iff.mp hp
        rw [Parts, (gradeAt_fields _ q).2.2.2.2]
        exact hparts id q hq)
  rw [hfst, verdicts_congr (fun id hid => by rw [htracked, if_pos hid]) hcalls] at hw
  refine ⟨?_, ?_, ?_, hsteps.settings.2.2.trans henv, hparts'⟩
  · rw [← hwins]
    exact hw.divWins
  · rw [← hobserved]
    exact hw.divObserved
  · rw [← hcalls]
    exact congrArg (· + 1) hw.calls

/-! ## The trust of a run -/

/-- The trust of a mixer against the disagreements and the verdicts of its run. -/
structure Weighs [F64] (s : HybridMixer) (qs : List Disagreement) (vs : List Verdict) : Prop where
  divWins : s.divWins = vs.foldl Verdict.weigh fun _ => (0, 0)
  divObserved : s.divObserved = vs.length
  tracked : ∀ id q, s.disagreementOf id = some q → q ∈ qs
  disagreements : (qs.map Disagreement.key).Nodup
  recorded : ∀ q ∈ qs, q.call ≤ s.calls ∧ q.div.suffixTok ≠ q.div.nativeTok
  verdicts : (vs.map fun v => v.disagreement.key).Nodup
  decided : ∀ v ∈ vs, v.Decides s.calls qs

/-- The context of a continuing row grew by the accepted tokens and the sampled one. -/
def Grows (s : HybridMixer) (same : List Token → List Token → Bool) (accepted : ℤ) (row : List Token)
    (id : ReqId) : Prop :=
  ∀ p ∈ s.previous.lookup id, same p.context row = true → 0 ≤ accepted →
    p.context <+: row ∧ row.length = p.context.length + accepted.toNat + 1

instance (s : HybridMixer) (same : List Token → List Token → Bool) (accepted : ℤ) (row : List Token)
    (id : ReqId) : Decidable (s.Grows same accepted row id) :=
  inferInstanceAs (Decidable (∀ p ∈ s.previous.lookup id, _ → _ → _))

/-- The contexts of an accepted call grew by their accepted tokens and the sampled one. -/
def GrowsByAccepted [F64] (s : HybridMixer) : Op → Prop
  | .call o ids src natives accepted =>
    match s.call o ids src natives accepted with
    | some (.ok _, _) => ∀ e ∈ ids.zipIdx, ∀ row ∈ (src.rows ids.length)[e.2]?,
      s.Grows src.same (feedbackAt accepted e.2) row e.1
    | _ => True
  | _ => True

instance GrowsByAccepted.decidable [F64] (s : HybridMixer) :
    ∀ operation, Decidable (s.GrowsByAccepted operation)
  | .addSequence _ => isTrue trivial
  | .addPrompt _ => isTrue trivial
  | .call o ids src natives accepted =>
    match h : s.call o ids src natives accepted with
    | some (.ok _, _) => decidable_of_iff (∀ e ∈ ids.zipIdx, ∀ row ∈ (src.rows ids.length)[e.2]?,
        s.Grows src.same (feedbackAt accepted e.2) row e.1) (by simp only [GrowsByAccepted, h])
    | some (.error _, _) => isTrue (by simp only [GrowsByAccepted, h])
    | none => isTrue (by simp only [GrowsByAccepted, h])

/-- The verdicts of a batch are those on the disagreements of its continuing rows that the verifier
reached. -/
structure Judges (s : HybridMixer) (ids : List ReqId) (src : Source) (accepted : Option (List ℤ))
    (vs : List Verdict) : Prop where
  due : ∀ (i : ℕ) id row q, ids[i]? = some id → (src.rows ids.length)[i]? = some row →
    s.disagreementOf id = some q → src.same q.context row = true →
    q.div.j ≤ feedbackAt accepted i → ∃ v ∈ vs, v.disagreement = q ∧ v.row = row
  only : ∀ v ∈ vs, ∃ (i : ℕ) (id : ReqId), ids[i]? = some id ∧
    (src.rows ids.length)[i]? = some v.row ∧ s.disagreementOf id = some v.disagreement ∧
    src.same v.disagreement.context v.row = true ∧ v.accepted = feedbackAt accepted i ∧
    v.disagreement.div.j ≤ v.accepted ∧ v.call = s.calls + 1

/-- An operation judges the disagreements that are due, an accepted call some and another operation
none. -/
def JudgesDue [F64] (s : HybridMixer) (operation : Op) : Prop :=
  match operation with
  | .call o ids src natives accepted =>
    match s.call o ids src natives accepted with
    | some (.ok _, _) => s.Judges ids src accepted (s.opVerdicts operation)
    | _ => s.opVerdicts operation = []
  | _ => s.opVerdicts operation = []

lemma mem_verdicts {s : HybridMixer} {same : List Token → List Token → Bool}
    {accepted : Option (List ℤ)} {rows : List (List Token)} {ids : List ReqId} {v : Verdict} :
    v ∈ s.verdicts same accepted rows 0 ids ↔ ∃ (i : ℕ) (id : ReqId) (row : List Token),
      ids[i]? = some id ∧ rows[i]? = some row ∧
      s.verdictOf same (feedbackAt accepted i) row id = some v := by
  simp only [verdicts, List.mem_filterMap, Option.bind_eq_some_iff, Prod.exists,
    List.mem_zipIdx_iff_getElem?]
  constructor
  · rintro ⟨id, i, hid, row, hrow, hv⟩
    exact ⟨i, id, row, hid, hrow, hv⟩
  · rintro ⟨i, id, row, hid, hrow, hv⟩
    exact ⟨id, i, hid, row, hrow, hv⟩

/-- What a continuing row appends reaches every position that the verifier reached. -/
lemma Grows.emitted {s : HybridMixer} {same : List Token → List Token → Bool} {accepted : ℤ}
    {row : List Token} {id : ReqId} (h : s.Grows same accepted row id) {q : Disagreement}
    (hq : s.disagreementOf id = some q) (hsame : same q.context row = true)
    (hle : q.div.j ≤ accepted) : ∃ emitted, row = q.context ++ emitted ∧
      ∃ truth, emitted[q.div.j]? = some truth := by
  obtain ⟨p, d, hp, _, rfl⟩ := disagreementOf_eq_some.mp hq
  dsimp only at hsame hle ⊢
  obtain ⟨⟨emitted, rfl⟩, hlen⟩ := h p hp hsame (by omega)
  rw [List.length_append] at hlen
  have hlt : d.j < emitted.length := by omega
  exact ⟨emitted, rfl, _, List.getElem?_eq_getElem hlt⟩

/-- The verdicts of an accepted call whose contexts grew. -/
lemma judges_verdicts {s : HybridMixer} {ids : List ReqId} {src : Source}
    {accepted : Option (List ℤ)} (hgrow : ∀ e ∈ ids.zipIdx, ∀ row ∈ (src.rows ids.length)[e.2]?,
      s.Grows src.same (feedbackAt accepted e.2) row e.1) :
    s.Judges ids src accepted (s.verdicts src.same accepted (src.rows ids.length) 0 ids) ∧
      ∀ v ∈ s.verdicts src.same accepted (src.rows ids.length) 0 ids, ∃ emitted,
        v.row = v.disagreement.context ++ emitted ∧
          emitted[v.disagreement.div.j]? = some v.truth := by
  have hgrows {i : ℕ} {id : ReqId} {row : List Token} (hid : ids[i]? = some id)
      (hrow : (src.rows ids.length)[i]? = some row) :
      s.Grows src.same (feedbackAt accepted i) row id :=
    hgrow (id, i) (List.mem_zipIdx_iff_getElem?.mpr hid) row hrow
  refine ⟨⟨?_, ?_⟩, ?_⟩
  · intro i id row q hid hrow hq hsame hle
    obtain ⟨emitted, hemit, truth, htruth⟩ := (hgrows hid hrow).emitted hq hsame hle
    have hread : row[q.context.length + q.div.j]? = some truth := by
      rw [hemit, List.getElem?_append_right (Nat.le_add_right _ _), Nat.add_sub_cancel_left, htruth]
    exact ⟨_, mem_verdicts.mpr ⟨i, id, row, hid, hrow,
      verdictOf_eq_some.mpr ⟨q, truth, hq, hsame, hle, hread, rfl⟩⟩, rfl, rfl⟩
  · intro v hv
    obtain ⟨i, id, row, hid, hrow, hv⟩ := mem_verdicts.mp hv
    obtain ⟨q, truth, hq, hsame, hle, _, rfl⟩ := verdictOf_eq_some.mp hv
    exact ⟨i, id, hid, hrow, hq, hsame, rfl, hle, rfl⟩
  · intro v hv
    obtain ⟨i, id, row, hid, hrow, hv⟩ := mem_verdicts.mp hv
    obtain ⟨q, truth, hq, hsame, hle, htruth, rfl⟩ := verdictOf_eq_some.mp hv
    obtain ⟨emitted, hemit, _⟩ := (hgrows hid hrow).emitted hq hsame hle
    refine ⟨emitted, hemit, ?_⟩
    rw [hemit, List.getElem?_append_right (Nat.le_add_right _ _), Nat.add_sub_cancel_left] at htruth
    exact htruth

/-- The disagreements of a call are its own, one a request. -/
lemma disagreements_nodup (s : HybridMixer) {ids : List ReqId} (hids : ids.Nodup) :
    ((ids.filterMap s.disagreementOf).map Disagreement.key).Nodup := by
  apply List.Nodup.of_map Prod.snd
  rw [List.map_map]
  have hsub : ((ids.filterMap s.disagreementOf).map Disagreement.id).Sublist (ids.map id) := by
    apply map_filterMap_sublist
    intro id q hq
    obtain ⟨p, d, _, _, rfl⟩ := disagreementOf_eq_some.mp hq
    rfl
  rw [List.map_id] at hsub
  exact hids.sublist hsub

/-- The verdicts of a call are on different disagreements. -/
lemma verdicts_nodup (s : HybridMixer) {ids : List ReqId} (hids : ids.Nodup)
    (same : List Token → List Token → Bool) (accepted : Option (List ℤ)) (rows : List (List Token)) :
    ((s.verdicts same accepted rows 0 ids).map fun v => v.disagreement.key).Nodup := by
  apply List.Nodup.of_map Prod.snd
  rw [List.map_map]
  have hsub : ((s.verdicts same accepted rows 0 ids).map fun v => v.disagreement.id).Sublist
      (ids.zipIdx.map Prod.fst) := by
    apply map_filterMap_sublist
    intro e v hv
    obtain ⟨row, _, hv⟩ := Option.bind_eq_some_iff.mp hv
    obtain ⟨q, truth, hq, _, _, _, rfl⟩ := verdictOf_eq_some.mp hv
    obtain ⟨p, d, _, _, rfl⟩ := disagreementOf_eq_some.mp hq
    rfl
  rw [List.zipIdx_map_fst] at hsub
  exact hids.sublist hsub

/-- An operation keeps the trust of the run, and judges what is due. -/
lemma Weighs.step [F64] {s s' : HybridMixer} {qs : List Disagreement} {vs : List Verdict}
    (h : s.Weighs qs vs) (hinv : s.Inv) (hdiv : s.env.diverge = true)
    (hparts : ∀ id p, s.previous.lookup id = some p → Parts p) {operation : Op}
    (hgrow : s.GrowsByAccepted operation) (hop : s.op operation = some s') :
    s'.Weighs (qs ++ s.opDisagreements operation) (vs ++ s.opVerdicts operation) ∧
      s.JudgesDue operation ∧ s'.env.diverge = true ∧
      ∀ id p, s'.previous.lookup id = some p → Parts p := by
  cases operation with
  | addSequence tokens | addPrompt tokens =>
    obtain ⟨cache, _, rfl⟩ := Option.map_eq_some_iff.mp hop
    simp only [opDisagreements, opVerdicts, List.append_nil]
    exact ⟨⟨h.divWins, h.divObserved, h.tracked, h.disagreements, h.recorded, h.verdicts,
      h.decided⟩, rfl, hdiv, hparts⟩
  | call o ids src natives accepted =>
    obtain ⟨⟨r, t⟩, hcall, rfl⟩ := Option.map_eq_some_iff.mp hop
    rcases call_cases o s ids src natives accepted with ⟨e, he⟩ | hacc
    · rw [he] at hcall
      cases hcall
      simp only [opDisagreements, opVerdicts, JudgesDue, he, List.append_nil]
      exact ⟨h, trivial, hdiv, hparts⟩
    · obtain ⟨drafts, t', hcall', _, _, _, hkeys, _⟩ := hacc.rows hinv
      rw [hcall] at hcall'
      cases hcall'
      obtain ⟨hwins, hobserved, hcalls, henv, hparts'⟩ := hacc.weighed hinv hdiv hparts hcall
      simp only [GrowsByAccepted, hcall] at hgrow
      obtain ⟨hjudges, hemitted⟩ := judges_verdicts hgrow
      have hqs : s.opDisagreements (.call o ids src natives accepted)
          = ids.filterMap t.disagreementOf := by
        simp only [opDisagreements, hcall]
      have hvs : s.opVerdicts (.call o ids src natives accepted)
          = s.verdicts src.same accepted (src.rows ids.length) 0 ids := by
        simp only [opVerdicts, hcall]
      have hjudgesDue : s.JudgesDue (.call o ids src natives accepted) := by
        simp only [JudgesDue, hcall, hvs]
        exact hjudges
      rw [hqs, hvs]
      dsimp only
      refine ⟨?_, hjudgesDue, by rw [henv]; exact hdiv, hparts'⟩
      exact {
        divWins := by rw [hwins, h.divWins, List.foldl_append]
        divObserved := by rw [hobserved, h.divObserved, List.length_append]
        tracked := fun id q hq => by
          obtain ⟨p, d, hp, _, _⟩ := disagreementOf_eq_some.mp hq
          have hid : id ∈ ids := (hkeys id).mp (Map.mem_of_lookup hp)
          exact List.mem_append_right _ (List.mem_filterMap.mpr ⟨id, hid, hq⟩)
        disagreements := by
          rw [List.map_append]
          apply nodup_append_calls h.disagreements (disagreements_nodup t hacc.args.nodup)
          · intro key hkey
            obtain ⟨q, hq, rfl⟩ := List.mem_map.mp hkey
            exact Nat.lt_succ_of_le (h.recorded q hq).1
          · intro key hkey
            obtain ⟨q, hq, rfl⟩ := List.mem_map.mp hkey
            obtain ⟨id, _, hid⟩ := List.mem_filterMap.mp hq
            obtain ⟨p, d, _, _, rfl⟩ := disagreementOf_eq_some.mp hid
            exact hcalls.ge
        recorded := fun q hq => by
          rcases List.mem_append.mp hq with hold | hnow
          · have hle := (h.recorded q hold).1
            exact ⟨by omega, (h.recorded q hold).2⟩
          · obtain ⟨id, _, hid⟩ := List.mem_filterMap.mp hnow
            obtain ⟨p, d, hp, hd, rfl⟩ := disagreementOf_eq_some.mp hid
            exact ⟨le_rfl, hparts' id p hp d hd⟩
        verdicts := by
          rw [List.map_append]
          apply nodup_append_calls h.verdicts (verdicts_nodup s hacc.args.nodup _ _ _)
          · intro key hkey
            obtain ⟨v, hv, rfl⟩ := List.mem_map.mp hkey
            have hd := h.decided v hv
            have hlt : v.disagreement.call < s.calls := calc
              v.disagreement.call < v.call := by rw [hd.next]; exact Nat.lt_succ_self _
              _ ≤ s.calls := hd.call_le
            exact hlt
          · intro key hkey
            obtain ⟨v, hv, rfl⟩ := List.mem_map.mp hkey
            obtain ⟨_, id, _, _, hq, _⟩ := hjudges.only v hv
            obtain ⟨p, d, _, _, heq⟩ := disagreementOf_eq_some.mp hq
            rw [heq]
            exact le_rfl
        decided := fun v hv => by
          rcases List.mem_append.mp hv with hold | hnow
          · have hd := h.decided v hold
            have hle := hd.call_le
            exact ⟨List.mem_append_left _ hd.recorded, hd.next, by omega, hd.reached, hd.truth⟩
          · obtain ⟨_, id, _, _, hq, _, _, hreached, hnext⟩ := hjudges.only v hnow
            obtain ⟨p, d, _, _, heq⟩ := disagreementOf_eq_some.mp hq
            exact ⟨List.mem_append_left _ (h.tracked id _ hq), by rw [hnext, heq], by omega, hreached,
              hemitted v hnow⟩ }

/-- A run keeps the trust and judges at every operation what is due. -/
lemma Weighs.along [F64] {s s' : HybridMixer} {qs : List Disagreement} {vs : List Verdict}
    (h : s.Weighs qs vs) (hinv : s.Inv) (hdiv : s.env.diverge = true)
    (hparts : ∀ id p, s.previous.lookup id = some p → Parts p) {ops : List Op}
    (hgrow : Lib.Along op GrowsByAccepted s ops) (hrun : run op s ops = some s') :
    s'.Weighs (qs ++ collect op opDisagreements s ops) (vs ++ collect op opVerdicts s ops) ∧
      Lib.Along op JudgesDue s ops := by
  induction ops generalizing s qs vs with
  | nil =>
    cases hrun
    simp only [collect_nil, List.append_nil]
    exact ⟨h, trivial⟩
  | cons operation ops ih =>
    rw [run_cons, Option.bind_eq_some_iff] at hrun
    obtain ⟨t, hop, hrest⟩ := hrun
    obtain ⟨hweighs, hjudges, hdiv', hparts'⟩ := h.step hinv hdiv hparts hgrow.1 hop
    obtain ⟨hweighs', hjudges'⟩ := ih hweighs (hinv.op hop) hdiv' hparts' (hgrow.2 t hop) hrest
    rw [collect_cons opDisagreements hop, collect_cons opVerdicts hop, ← List.append_assoc,
      ← List.append_assoc]
    refine ⟨hweighs', hjudges, fun t' ht' => ?_⟩
    cases hop.symm.trans ht'
    exact hjudges'

lemma weighs_empty [F64] (cfg : Config) (env : MixerEnv) (k maxModelLen : ℕ) (hk : 0 < k) :
    (empty cfg env k maxModelLen hk).Weighs [] [] where
  divWins := rfl
  divObserved := rfl
  tracked := fun id q hq => by
    obtain ⟨p, d, hp, _⟩ := disagreementOf_eq_some.mp hq
    simp [empty] at hp
  disagreements := List.nodup_nil
  recorded := by simp
  verdicts := List.nodup_nil
  decided := by simp

/-! ## Exact evidence -/

/-- The evidence of a bucket under exact arithmetic: `1000` is the limit of the discounted count. -/
structure Evidence (w : ℚ × ℚ) : Prop where
  suffix : 0 ≤ w.1
  native : 0 ≤ w.2
  sum_le : w.1 + w.2 ≤ 1000

/-- A verdict keeps the evidence in its range: it counts for one side at most. -/
lemma Evidence.observe {w : ℚ × ℚ} (h : Evidence w) {d : Divergence} (hne : d.suffixTok ≠ d.nativeTok)
    (truth : Token) : Evidence (@HybridMixer.observe F64.exact w d truth) := by
  obtain ⟨h1, h2, hsum⟩ := h
  have hone : (if truth = d.suffixTok then (1 : ℚ) else 0) + (if truth = d.nativeTok then 1 else 0)
      ≤ 1 := by
    by_cases hs : truth = d.suffixTok
    · rw [if_pos hs, if_neg fun hn => hne (hs.symm.trans hn), add_zero]
    · rw [if_neg hs, zero_add]
      split <;> norm_num
  have hpos (p : Prop) [Decidable p] : (0 : ℚ) ≤ if p then 1 else 0 := by split <;> norm_num
  have hsuffix := hpos (truth = d.suffixTok)
  have hnative := hpos (truth = d.nativeTok)
  constructor
  · change 0 ≤ w.1 * (999 / 1000) + _
    linarith
  · change 0 ≤ w.2 * (999 / 1000) + _
    linarith
  · change w.1 * (999 / 1000) + _ + (w.2 * (999 / 1000) + _) ≤ 1000
    linarith

/-- The evidence after a list of verdicts. A bucket without one keeps its own. -/
lemma foldl_weigh_exact {vs : List Verdict}
    (hne : ∀ v ∈ vs, v.disagreement.div.suffixTok ≠ v.disagreement.div.nativeTok)
    {wins : Fin divBuckets → ℚ × ℚ} (h : ∀ b, Evidence (wins b)) (b : Fin divBuckets) :
    Evidence (vs.foldl (@Verdict.weigh F64.exact) wins b) ∧
      ((∀ v ∈ vs, v.disagreement.div.bucket ≠ b) →
        vs.foldl (@Verdict.weigh F64.exact) wins b = wins b) := by
  induction vs generalizing wins with
  | nil => exact ⟨h b, fun _ => rfl⟩
  | cons v vs ih =>
    have hstep : ∀ b', Evidence (@Verdict.weigh F64.exact wins v b') := by
      intro b'
      unfold Verdict.weigh
      by_cases hb : b' = v.disagreement.div.bucket
      · rw [hb, Function.update_self]
        exact (h _).observe (hne v (by simp)) v.truth
      · rw [Function.update_of_ne hb]
        exact h b'
    obtain ⟨hrange, hkept⟩ := ih (fun v' hv' => hne v' (List.mem_cons_of_mem v hv')) hstep
    refine ⟨hrange, fun hnone => ?_⟩
    have hb : b ≠ v.disagreement.div.bucket := (hnone v (by simp)).symm
    rw [List.foldl_cons, hkept fun v' hv' => hnone v' (List.mem_cons_of_mem v hv')]
    exact Function.update_of_ne hb _ _

/-- The trust of a bucket lies strictly between zero and one. -/
lemma Evidence.trust_between {w : ℚ × ℚ} (h : Evidence w) :
    0 < @trust F64.exact w ∧ @trust F64.exact w < 1 := by
  obtain ⟨h1, h2, _⟩ := h
  change 0 < (w.1 + 1) / (w.1 + w.2 + 2) ∧ (w.1 + 1) / (w.1 + w.2 + 2) < 1
  have hden : 0 < w.1 + w.2 + 2 := by linarith
  exact ⟨div_pos (by linarith) hden, (div_lt_one hden).mpr (by linarith)⟩

/-! ## Whole runs -/

/-- The divergence split grades both sources against the verified token. The evidence of a run is the
fold of its verdicts, each on a disagreement of its own that the call before recorded, and every
disagreement that is due gets one. Under exact arithmetic the evidence of a bucket stays within the
limit of its discount, its trust strictly between zero and one, and at one half without a verdict. -/
theorem trust_graded [fp : F64] {cfg : Config} {env : MixerEnv} {k maxModelLen : ℕ}
    {s s' : HybridMixer} (hnew : HybridMixer.new cfg env k maxModelLen = .ok s)
    (hdiv : env.diverge = true) {ops : List Op} (hgrow : Lib.Along op GrowsByAccepted s ops)
    (hrun : run op s ops = some s') :
    s'.Weighs (collect op opDisagreements s ops) (collect op opVerdicts s ops) ∧
      Lib.Along op JudgesDue s ops ∧
      (fp = F64.exact → ∀ b, Evidence (s'.divWins b) ∧ 0 < @trust fp (s'.divWins b) ∧
        @trust fp (s'.divWins b) < 1 ∧
        ((∀ v ∈ @collect _ _ _ (@op fp) (@opVerdicts fp) s ops, v.disagreement.div.bucket ≠ b) →
          @trust fp (s'.divWins b) = 1 / 2)) := by
  have hinv := inv_new hnew
  unfold HybridMixer.new at hnew
  split at hnew
  case isFalse => cases hnew
  case isTrue hargs =>
    obtain rfl := Except.ok.inj hnew
    have hparts : ∀ id p, (empty cfg env k maxModelLen hargs.1.1).previous.lookup id = some p →
        Parts p := by
      intro id p hp
      simp [empty] at hp
    obtain ⟨hweighs, hjudges⟩ :=
      (weighs_empty cfg env k maxModelLen hargs.1.1).along hinv hdiv hparts hgrow hrun
    rw [List.nil_append, List.nil_append] at hweighs
    have hwins := hweighs.divWins
    have hne (v : Verdict) (hv : v ∈ collect op opVerdicts _ ops) :
        v.disagreement.div.suffixTok ≠ v.disagreement.div.nativeTok :=
      (hweighs.recorded _ (hweighs.decided v hv).recorded).2
    refine ⟨hweighs, hjudges, ?_⟩
    rintro rfl b
    have hzero : ∀ b' : Fin divBuckets, Evidence ((fun _ => (0, 0) : Fin divBuckets → ℚ × ℚ) b') :=
      fun _ => ⟨le_rfl, le_rfl, by norm_num⟩
    obtain ⟨hrange, hkept⟩ := foldl_weigh_exact hne hzero b
    rw [hwins]
    refine ⟨hrange, hrange.trust_between.1, hrange.trust_between.2, fun hnone => ?_⟩
    rw [hkept hnone]
    change ((0 : ℚ) + 1) / (0 + 0 + 2) = 1 / 2
    norm_num

/-- A request whose candidate and native draft part in their first token, which the target settles for
the candidate. -/
def partedOps : List Op :=
  [.addSequence [1, 2, 3, 4, 5],
    .call (HashOrder.stored ReqId) ["a"] (.lists [[1, 2]]) [[9, 9]] none,
    .call (HashOrder.stored ReqId) ["a"] (.lists [[1, 2, 3]]) [[4, 5]] (some [0])]

/-- One verdict, for the candidate. -/
theorem trust_graded_parted :
    ∃ s', @run _ _ (@op F64.exact)
        (empty (Config.ofN 1 (by decide)) { diverge := true } 2 100 (by decide)) partedOps = some s' ∧
      s'.divObserved = 1 ∧ ∀ b, Evidence (s'.divWins b) := by
  have hview : (@run _ _ (@op F64.exact)
      (empty (Config.ofN 1 (by decide)) { diverge := true } 2 100 (by decide)) partedOps).map
        (fun s => s.divObserved) = some 1 := by with_unfolding_all decide
  obtain ⟨s', hrun, hobserved⟩ := Option.map_eq_some_iff.mp hview
  have hgrow : Lib.Along (@op F64.exact) (@GrowsByAccepted F64.exact)
      (empty (Config.ofN 1 (by decide)) { diverge := true } 2 100 (by decide)) partedOps := by
    -- exact arithmetic is not the default
    refine @of_decide_eq_true _ (@Along.decidable _ _ _ _ (@GrowsByAccepted.decidable F64.exact) _ _) ?_
    with_unfolding_all decide
  have hnew : new (Config.ofN 1 (by decide)) { diverge := true } 2 100
      = .ok (empty (Config.ofN 1 (by decide)) { diverge := true } 2 100 (by decide)) := by
    simp [new, empty]
  have hevidence := (@trust_graded F64.exact _ _ _ _ _ _ hnew rfl _ hgrow hrun).2.2 rfl
  exact ⟨s', hrun, hobserved, fun b => (hevidence b).1⟩

end HybridMixer
end SuffixHybrid
