import SuffixHybrid.Mixer.Entry

/-!
# The contract of a call

A call is atomic (`mix_atomic`): it raises and changes nothing, or it returns one draft a request and
leaves a mixer that keeps the invariant; it never aborts on the way. That mixer tracks one proposal a
request, of the length of its draft (`mixNumpy_ok`). The drafts fit the model length and the reported
native counts are exact (`reported_prefix_exact`).
-/

namespace SuffixHybrid
open Lib

namespace HybridMixer

/-- A mix that returns drafts tracks the requests of its batch, each with the length of its draft. -/
lemma mixNumpy_ok [F64] {m m' : HybridMixer} (hinv : m.Inv) {o : HashOrder ReqId} {ids : List ReqId}
    {counts : CountArray} {tokens : TokenArray} {natives drafts : List (List Token)}
    {accepted : Option (List ℤ)}
    (h : m.mixNumpy o ids counts tokens natives accepted = some (.ok drafts, m')) :
    m'.Inv ∧ ids.Nodup ∧ drafts.length = ids.length ∧
      (∀ id p, m'.previous.lookup id = some p → ∃ draft, (id, draft) ∈ ids.zip drafts ∧
        p.length = draft.length) ∧
      ∀ draft ∈ drafts, ∃ native ∈ natives, draft.length ≤ native.length := by
  have hcall : m.call o ids (.numpy counts tokens) natives accepted = some (.ok drafts, m') := h
  obtain ⟨hacc, hlen, _, hkeys, hrows⟩ := call_ok_spec hinv hcall
  have hinv' : m'.Inv := by
    rcases call_total hinv o ids (.numpy counts tokens) natives accepted with
      ⟨e, he⟩ | ⟨drafts', m1, hm1, _, hinv1⟩
    · rw [he] at hcall
      cases hcall
    · rw [hm1] at hcall
      cases hcall
      exact hinv1
  have hrow (i : ℕ) (hi : i < ids.length) : ∃ native draft p, natives[i]? = some native ∧
      drafts[i]? = some draft ∧ m'.previous.lookup ids[i] = some p ∧ p.length = draft.length ∧
      draft.length ≤ native.length := by
    have hn : i < natives.length := by rw [hacc.args.natives_length]; exact hi
    have hr : i < ((Source.numpy counts tokens).rows ids.length).length :=
      hi.trans_le hacc.args.rows_length
    obtain ⟨draft, t, hdraft, _, hcallRow⟩ := hrows i ids[i] natives[i] _
      (List.getElem?_eq_getElem hi) (List.getElem?_eq_getElem hn) (List.getElem?_eq_getElem hr)
    obtain ⟨t', _, hstep, hafter⟩ := hcallRow.step
    obtain ⟨p, hp, hprop, _⟩ := hstep.previous
    refine ⟨natives[i], draft, p, List.getElem?_eq_getElem hn, hdraft, ?_, hprop.length,
      hstep.length_le.trans (rowCap_le_length _ _ _)⟩
    rw [hafter, hp, Map.lookup_put_self]
  refine ⟨hinv', hacc.args.nodup, hlen, fun id p hp => ?_, fun draft hdraft => ?_⟩
  · obtain ⟨i, hi, rfl⟩ := List.getElem_of_mem ((hkeys id).mp (Map.mem_of_lookup hp))
    obtain ⟨_, draft, q, _, hdraft, hq, hql, _⟩ := hrow i hi
    refine ⟨draft, ?_, ?_⟩
    · apply List.mem_of_getElem? (i := i)
      exact List.getElem?_zip_eq_some.mpr ⟨List.getElem?_eq_getElem hi, hdraft⟩
    · rw [hp] at hq
      cases hq
      exact hql
  · obtain ⟨i, hi, rfl⟩ := List.getElem_of_mem hdraft
    obtain ⟨native, draft, _, hnative, hdraft', _, _, hle⟩ := hrow i (hlen ▸ hi)
    rw [List.getElem?_eq_getElem hi] at hdraft'
    cases hdraft'
    exact ⟨native, List.mem_of_getElem? hnative, hle⟩

/-- A mix that raises changes nothing. -/
lemma mixNumpy_error [F64] {m m' : HybridMixer} (hinv : m.Inv) {o : HashOrder ReqId}
    {ids : List ReqId} {counts : CountArray} {tokens : TokenArray} {natives : List (List Token)}
    {accepted : Option (List ℤ)} {e : PyErr}
    (h : m.mixNumpy o ids counts tokens natives accepted = some (.error e, m')) : m' = m := by
  have hcall : m.call o ids (.numpy counts tokens) natives accepted = some (.error e, m') := h
  rcases call_total hinv o ids (.numpy counts tokens) natives accepted with
    ⟨e', he⟩ | ⟨drafts, m1, hm1, _⟩
  · rw [he] at hcall
    cases hcall
    rfl
  · rw [hm1] at hcall
    cases hcall

/-- The outcome of a call on `s` with `n` requests: an exception without effect, or one draft a
request and a mixer that keeps the invariant. -/
def Atomic (s : HybridMixer) (n : ℕ) : Outcome → Prop
  | (.error _, s') => s' = s
  | (.ok drafts, s') => drafts.length = n ∧ s'.Inv

lemma call_atomic [F64] {s : HybridMixer} (h : s.Inv) (o : HashOrder ReqId) (ids : List ReqId)
    (src : Source) (natives : List (List Token)) (accepted : Option (List ℤ)) :
    ∃ out, s.call o ids src natives accepted = some out ∧ s.Atomic ids.length out := by
  rcases call_total h o ids src natives accepted with ⟨e, he⟩ | ⟨drafts, s', hs', hlen, hinv⟩
  · exact ⟨_, he, rfl⟩
  · exact ⟨_, hs', hlen, hinv⟩

/-- Both entry points are atomic, on every mixer that keeps the invariant of the reachable ones. -/
theorem mix_atomic [F64] :
    (∀ s, Reachable s → s.Inv) ∧
      ∀ s : HybridMixer, s.Inv → ∀ (o : HashOrder ReqId) (ids : List ReqId)
        (natives : List (List Token)) (accepted : Option (List ℤ)),
        (∀ contexts, ∃ out, s.mix o ids contexts natives accepted = some out ∧
          s.Atomic ids.length out) ∧
        ∀ counts tokens, ∃ out, s.mixNumpy o ids counts tokens natives accepted = some out ∧
          s.Atomic ids.length out := by
  refine ⟨fun s hs => hs.inv, fun s h o ids natives accepted => ⟨fun contexts => ?_, ?_⟩⟩
  · exact call_atomic h o ids (.lists contexts) natives accepted
  · exact fun counts tokens => call_atomic h o ids (.numpy counts tokens) natives accepted

/-- A new mixer takes a first batch of one request. -/
theorem mix_atomic_first :
    ∃ out, (empty Config.default {} 4 100 (by decide)).mix (HashOrder.stored ReqId) ["a"]
        [[1, 2, 3]] [[7, 8]] none = some out ∧
      (empty Config.default {} 4 100 (by decide)).Atomic 1 out :=
  (mix_atomic.2 _ (inv_empty Config.default {} 4 100 (by decide)) (HashOrder.stored ReqId) ["a"]
    [[7, 8]] none).1 [[1, 2, 3]]

/-- The published drafts fit the cap of their rows and the model length, and the reported counts are
the lengths of the native prefixes. -/
theorem reported_prefix_exact [F64] {s s' : HybridMixer} (hs : Reachable s) {o : HashOrder ReqId}
    {ids : List ReqId} {src : Source} {natives drafts : List (List Token)}
    {accepted : Option (List ℤ)}
    (hcall : s.call o ids src natives accepted = some (.ok drafts, s')) :
    drafts.length = ids.length ∧ s'.lastNative.length = ids.length ∧
      ∀ (i : ℕ) (id : ReqId) (native : List Token), ids[i]? = some id → natives[i]? = some native →
        ∃ draft p cap, drafts[i]? = some draft ∧ s'.previous.lookup id = some p ∧
          cap = min (min s.k (s.maxModelLen - p.context.length)) native.length ∧
          draft.length ≤ cap ∧
          (s.env.diverge = true → draft.length = cap) ∧
          (s.env.diverge = false → draft.length = cap ∨ draft.length = cap - 1) ∧
          (p.context.length ≤ s.maxModelLen →
            p.context.length + draft.length ≤ s.maxModelLen) ∧
          s'.lastNative[i]? = some (lcp draft native) ∧
          draft.take (lcp draft native) = native.take (lcp draft native) ∧
          (lcp draft native < draft.length →
            draft[lcp draft native]? ≠ native[lcp draft native]?) := by
  obtain ⟨hacc, hlen, hlast, _, hrows⟩ := call_ok_spec hs.inv hcall
  refine ⟨hlen, ?_, fun i id native hid hnative => ?_⟩
  · rw [hlast, List.length_zipWith, hlen, hacc.args.natives_length, Nat.min_self]
  · have hi : i < (src.rows ids.length).length :=
      (List.getElem?_eq_some_iff.mp hid).1.trans_le hacc.args.rows_length
    obtain ⟨draft, t, hdraft, _, hrow⟩ :=
      hrows i id native _ hid hnative (List.getElem?_eq_getElem hi)
    obtain ⟨t1, _, hstep, hafter⟩ := hrow.step
    obtain ⟨p, hp, hprop, _⟩ := hstep.previous
    have hctx : p.context.length = (src.rows ids.length)[i].length := by
      rw [hprop.context, contextAfter_length hacc.compares.bounded]
    have hcap : t.rowCap (src.rows ids.length)[i].length native
        = min (min s.k (s.maxModelLen - p.context.length)) native.length := by
      rw [rowCap, hrow.k, hrow.maxModelLen, hctx]
    have hle := hstep.length_le
    have hge := hstep.length_ge
    have hdiv := hstep.length_diverge
    rw [hcap] at hle hge hdiv
    rw [hrow.env] at hdiv
    refine ⟨draft, p, _, hdraft, ?_, rfl, hle, hdiv, fun _ => ?_, fun hfit => ?_,
      hrow.lastNative, take_lcp draft native, getElem?_lcp_ne⟩
    · rw [hafter, hp, Map.lookup_put_self]
    · omega
    · omega

/-- A request whose context a cached sequence continues: the second proposal carries a tail. -/
def tailOps : List Op :=
  [.addSequence [1, 2, 3, 4, 5, 6, 7],
    .call (HashOrder.stored ReqId) ["a"] (.lists [[1, 2]]) [[9, 9, 9]] none]

/-- The call after `tailOps` publishes the tail of the cached sequence. -/
theorem reported_prefix_exact_tail :
    ∃ s s' : HybridMixer, Reachable s ∧
      s.call (HashOrder.stored ReqId) ["a"] (.lists [[1, 2, 3]]) [[4, 5, 9]] (some [0])
        = some (.ok [[4, 5, 6]], s') ∧ s'.lastNative.length = 1 := by
  obtain ⟨s, s', hs, hcall, _⟩ := Reachable.exists_call (Config.ofN 1 (by decide)) {} 3 100
    (by decide) (by decide) tailOps (HashOrder.stored ReqId) ["a"] (.lists [[1, 2, 3]]) [[4, 5, 9]]
    (some [0]) [[4, 5, 6]] (fun _ _ => ()) () (by with_unfolding_all decide)
  exact ⟨s, s', hs, hcall, (reported_prefix_exact hs hcall).2.1⟩

end HybridMixer
end SuffixHybrid
