import SuffixHybrid.Mixer.Call

/-!
# The entry points

`mix` and `mixNumpy` differ in how they read the token contexts of a batch. `Source` is either
argument and `Source.rows` are the authoritative rows it stands for. A call is rejected without
effect or runs the row loop over those rows (`call_cases`), and every mixer that calls and cache
insertions lead to (`Reachable`) keeps the invariant (`Reachable.inv`).
-/

namespace SuffixHybrid
open Lib

/-- The token arguments of the two entry points. -/
inductive Source where
  | lists (contexts : List (List Token))
  | numpy (counts : CountArray) (tokens : TokenArray)

namespace Source

/-- The counts of a batch of `n` requests. -/
def counts (n : ℕ) (counts : CountArray) : List ℤ :=
  match counts.read n with
  | .ok counts => counts
  | .error _ => []

/-- The authoritative rows of a batch of `n` requests. -/
def rows (n : ℕ) : Source → List (List Token)
  | .lists contexts => contexts
  | .numpy cs (.i64 _ grid) => cutRows grid.rows (counts n cs)
  | .numpy cs (.i32 grid) => cutRows grid.rows (counts n cs)
  | .numpy _ .other => []

/-- The test by which a row continues its tracked context. -/
def same : Source → List Token → List Token → Bool
  | .numpy _ (.i64 true _) => boundaryMatches
  | _ => startsWith

/-- The classifier of a batch of `n` requests. -/
def classifier (n : ℕ) : Source → Decide
  | .lists contexts => decideContexts contexts
  | .numpy cs (.i64 true grid) => decideFlat grid.rows.flatten grid.ncols (counts n cs)
  | .numpy cs (.i64 false grid) => decideRows grid.rows (counts n cs)
  | .numpy cs (.i32 grid) => decideRows grid.rows (counts n cs)
  | .numpy _ .other => fun _ _ => none

end Source

namespace HybridMixer

/-- A call through either entry point. -/
def call [F64] (o : HashOrder ReqId) (s : HybridMixer) (ids : List ReqId) (src : Source)
    (natives : List (List Token)) (accepted : Option (List ℤ)) : Option Outcome :=
  match src with
  | .lists contexts => s.mix o ids contexts natives accepted
  | .numpy counts tokens => s.mixNumpy o ids counts tokens natives accepted

/-- Feedback that the records allow is checked like no feedback. -/
lemma validate_feedback {s : HybridMixer} {ids : List ReqId} {natives : List (List Token)}
    {feedback : List ℤ} (hlen : feedback.length = ids.length)
    (hgood : ∀ id a, (id, a) ∈ ids.zip feedback → s.badFeedback id a = false) :
    s.validate ids natives (some feedback) = s.validate ids natives none := by
  unfold validate
  simp only [Option.any_some, Option.any_none, hlen, ne_eq, not_true_eq_false, decide_false,
    Bool.false_eq_true, false_or]
  split
  case isTrue => rfl
  case isFalse =>
    apply if_neg
    intro hbad
    obtain ⟨⟨id, a⟩, hmem, hrow⟩ := List.any_eq_true.mp hbad
    exact Bool.false_ne_true ((hgood id a hmem).symm.trans hrow)

/-- The checks that both entry points share. -/
lemma validate_ok {s : HybridMixer} {ids : List ReqId} {natives : List (List Token)}
    {accepted : Option (List ℤ)} (h : s.validate ids natives accepted = .ok ())
    {rows : List (List Token)} (hlen : ids.length ≤ rows.length)
    (hrows : ∀ row ∈ rows, row.length ≤ s.maxModelLen) :
    s.Admissible ids natives accepted rows := by
  unfold validate at h
  dsimp only at h
  split_ifs at h with hok
  · simp only [not_or] at hok
    obtain ⟨_, hn, hv, hids, hd⟩ := hok
    exact {
      nodup := by
        rw [← List.dedup_eq_self]
        exact List.Sublist.eq_of_length (List.dedup_sublist ids) (not_not.mp hids)
      natives_length := not_not.mp hn
      accepted_length := fun v hacc => by simpa [hacc] using hv
      rows_length := hlen
      native_le := fun d hmem => by
        have hall : ∀ d ∈ natives, d.length ≤ s.k ∧ ∀ t ∈ d, 0 ≤ t := by simpa using hd
        exact (hall d hmem).1
      row_le := hrows
      feedback := fun v hacc id a hmem => by
        subst hacc
        dsimp only at h
        split at h
        · simp at h
        · rename_i hgood
          have hall : ∀ e ∈ ids.zip v, ¬ s.badFeedback e.1 e.2 = true := by
            intro e he hbad
            exact hgood (List.any_eq_true.mpr ⟨e, he, hbad⟩)
          have hrow := hall (id, a) hmem
          simp only [badFeedback, Bool.or_eq_true, decide_eq_true_eq, not_or, not_lt] at hrow
          refine ⟨hrow.1, fun p hp => ?_⟩
          simpa [hp] using hrow.2 }

/-- The rows that checked counts cut out of a matrix. -/
lemma cutRows_ok {grid : Grid} {cs : CountArray} {n maxModelLen : ℕ} {counts : List ℤ}
    (hread : cs.read n = .ok counts) (hfits : grid.fits maxModelLen n counts = true) :
    n ≤ (cutRows grid.rows counts).length ∧
      (∀ row ∈ cutRows grid.rows counts, row.length ≤ maxModelLen) ∧
      ∀ c ∈ counts, c.toNat ≤ grid.ncols := by
  have hcs : counts.length = n := by
    cases cs with
    | i64 counts | i32 counts =>
      simp only [CountArray.read] at hread
      split at hread
      · simp at hread
      · rename_i hlen
        rw [← Except.ok.inj hread, List.length_take_of_le (by omega)]
    | other => simp [CountArray.read] at hread
  simp only [Grid.fits, Bool.not_eq_true', Bool.or_eq_false_iff, decide_eq_false_iff_not,
    List.any_eq_false, Bool.or_eq_true, decide_eq_true_eq, not_or, not_lt] at hfits
  obtain ⟨hrows, hcounts⟩ := hfits
  refine ⟨?_, ?_, fun c hc => (hcounts c hc).1.2⟩
  · simp only [cutRows, List.length_zipWith]
    omega
  · intro row hrow
    obtain ⟨i, hi⟩ := List.getElem?_of_mem hrow
    obtain ⟨r, c, _, hc, rfl⟩ := cutRows_eq_some hi
    have hle := (hcounts c (List.mem_of_getElem? hc)).2
    rw [List.length_take]
    omega

/-- A call is rejected without effect, or it runs the row loop over its authoritative rows. -/
structure Accepts [F64] (o : HashOrder ReqId) (s : HybridMixer) (ids : List ReqId) (src : Source)
    (natives : List (List Token)) (accepted : Option (List ℤ)) : Prop where
  compares : (src.classifier ids.length).Compares src.same (src.rows ids.length)
  args : s.Admissible ids natives accepted (src.rows ids.length)
  eq : s.call o ids src natives accepted
    = (s.mixCore o ids natives accepted (src.classifier ids.length)).map fun (drafts, s) =>
      (.ok drafts, s)

/-- The token matrix of an accepted `mixNumpy` call. -/
lemma mixNumpy_cases [F64] (o : HashOrder ReqId) {s : HybridMixer} {ids : List ReqId}
    {natives : List (List Token)} {accepted : Option (List ℤ)}
    (hval : s.validate ids natives accepted = .ok ()) {cs : CountArray} {counts : List ℤ}
    (hread : cs.read ids.length = .ok counts) (tokens : TokenArray) :
    (∃ e, s.call o ids (.numpy cs tokens) natives accepted = some (.error e, s)) ∨
      s.Accepts o ids (.numpy cs tokens) natives accepted := by
  have hcounts : Source.counts ids.length cs = counts := by simp [Source.counts, hread]
  have hdec : s.numpyDecide ids cs tokens natives accepted
      = tokens.decide s.maxModelLen ids.length counts := by
    rw [numpyDecide, hval]
    simp only [hread]
    rfl
  cases tokens with
  | other =>
    left
    exact ⟨.valueError "tokens must be int32/int64 NumPy", by
      simp only [call, mixNumpy, hdec, TokenArray.decide]⟩
  | i64 contiguous grid =>
    by_cases hfits : grid.fits s.maxModelLen ids.length counts = true
    · right
      obtain ⟨hlen, hmax, hc⟩ := cutRows_ok hread hfits
      have hadm := validate_ok hval hlen hmax
      cases contiguous with
      | true => exact {
          compares := by
            simpa only [Source.rows, Source.classifier, Source.same, hcounts] using compares_flat hc
          args := by simpa only [Source.rows, hcounts] using hadm
          eq := by simp [call, mixNumpy, hdec, TokenArray.decide, hfits, Source.classifier, hcounts] }
      | false => exact {
          compares := by
            simpa only [Source.rows, Source.classifier, Source.same, hcounts] using
              compares_rows grid.rows counts
          args := by simpa only [Source.rows, hcounts] using hadm
          eq := by simp [call, mixNumpy, hdec, TokenArray.decide, hfits, Source.classifier, hcounts] }
    · left
      exact ⟨.valueError "invalid row bounds", by
        simp only [call, mixNumpy, hdec, TokenArray.decide, if_neg hfits]⟩
  | i32 grid =>
    by_cases hfits : grid.fits s.maxModelLen ids.length counts = true
    · right
      obtain ⟨hlen, hmax, hc⟩ := cutRows_ok hread hfits
      have hadm := validate_ok hval hlen hmax
      exact {
        compares := by
          simpa only [Source.rows, Source.classifier, Source.same, hcounts] using
            compares_rows grid.rows counts
        args := by simpa only [Source.rows, hcounts] using hadm
        eq := by simp [call, mixNumpy, hdec, TokenArray.decide, hfits, Source.classifier, hcounts] }
    · left
      exact ⟨.valueError "invalid row bounds", by
        simp only [call, mixNumpy, hdec, TokenArray.decide, if_neg hfits]⟩

/-- A call is rejected without effect, or it is accepted. -/
theorem call_cases [F64] (o : HashOrder ReqId) (s : HybridMixer) (ids : List ReqId) (src : Source)
    (natives : List (List Token)) (accepted : Option (List ℤ)) :
    (∃ e, s.call o ids src natives accepted = some (.error e, s)) ∨
      s.Accepts o ids src natives accepted := by
  cases hval : s.validate ids natives accepted with
  | error e =>
    left
    refine ⟨e, ?_⟩
    cases src with
    | lists contexts => simp [call, mix, hval]
    | numpy cs tokens =>
      have hdec : s.numpyDecide ids cs tokens natives accepted = .error e := by
        rw [numpyDecide, hval]
        rfl
      simp [call, mixNumpy, hdec]
  | ok u =>
    cases src with
    | lists contexts =>
      by_cases hbad : contexts.length ≠ ids.length ∨
          (contexts.any fun c => c.length > s.maxModelLen) = true
      · left
        exact ⟨invalidBatch, by simp only [call, mix, hval]; rw [if_pos hbad]⟩
      · right
        obtain ⟨hlen, hmax⟩ := not_or.mp hbad
        have hall : ∀ c ∈ contexts, c.length ≤ s.maxModelLen := by simpa using hmax
        exact {
          compares := compares_contexts contexts
          args := validate_ok hval (not_not.mp hlen).ge hall
          eq := by
            simp only [call, mix, hval, Source.classifier]
            rw [if_neg hbad] }
    | numpy cs tokens =>
      cases hread : cs.read ids.length with
      | error e =>
        left
        have hdec : s.numpyDecide ids cs tokens natives accepted = .error e := by
          rw [numpyDecide, hval]
          simp only [hread]
          rfl
        exact ⟨e, by simp [call, mixNumpy, hdec]⟩
      | ok counts => exact mixNumpy_cases o hval hread tokens

/-! ## The rows of an accepted call -/

/-- The mixer before row `i` of a call. -/
def before [F64] (o : HashOrder ReqId) (s : HybridMixer) (ids : List ReqId) (src : Source)
    (natives : List (List Token)) (accepted : Option (List ℤ)) (i : ℕ) : Option HybridMixer := do
  let s ← s.start o ids accepted
  let (_, s) ← rows (src.classifier ids.length) accepted 0 ((ids.zip natives).take i) s
  some s

/-- No tracked request departs from the batch or resets its slot. -/
def Quiet (s : HybridMixer) (ids : List ReqId) (src : Source) : Prop :=
  ∀ id p, s.previous.lookup id = some p → ∃ (i : ℕ) (row : List Token), ids[i]? = some id ∧
    (src.rows ids.length)[i]? = some row ∧ src.same p.context row = true

/-- A quiet batch donates nothing. -/
lemma donated_eq_nil [F64] {o : HashOrder ReqId} {s : HybridMixer} {ids : List ReqId} {src : Source}
    {accepted : Option (List ℤ)} (h : s.Quiet ids src) :
    (s.feedback ids accepted).donated o ids = [] := by
  rw [donated, List.map_eq_nil_iff, List.eq_nil_iff_forall_not_mem]
  intro id hid
  obtain ⟨hmem, hnot⟩ := mem_gone.mp hid
  rw [AList.mem_keys, (feedback_same s ids accepted).keys, ← AList.mem_keys] at hmem
  obtain ⟨p, hp⟩ := Map.exists_lookup hmem
  obtain ⟨i, _, hi, _⟩ := h id p hp
  exact hnot (List.mem_of_getElem? hi)

/-- Row `i` of an accepted call that leaves the mixer `s'`, from the mixer `t` before it. -/
structure CallRow [F64] (s : HybridMixer) (ids : List ReqId) (src : Source)
    (accepted : Option (List ℤ)) (i : ℕ) (id : ReqId) (row native draft : List Token)
    (t s' : HybridMixer) : Prop where
  inv : t.Inv
  k : t.k = s.k
  maxModelLen : t.maxModelLen = s.maxModelLen
  env : t.env = s.env
  slot : t.previous.lookup id
    = (s.previous.lookup id).map (gradeAt (feedbackOf ids accepted id))
  quiet : s.Quiet ids src → t.cache = s.cache
  step : ∃ t', t.row (src.classifier ids.length) accepted i id native = some (draft, t') ∧
    RowStep t src.same row id native draft t' ∧ s'.previous.lookup id = t'.previous.lookup id
  lastNative : s'.lastNative[i]? = some (lcp draft native)

/-- An accepted call ends, with one draft a request, and runs every row of its batch. -/
theorem Accepts.rows [F64] {o : HashOrder ReqId} {s : HybridMixer} {ids : List ReqId} {src : Source}
    {natives : List (List Token)} {accepted : Option (List ℤ)}
    (h : s.Accepts o ids src natives accepted) (hinv : s.Inv) :
    ∃ drafts s', s.call o ids src natives accepted = some (.ok drafts, s') ∧
      drafts.length = ids.length ∧ s'.Inv ∧
      s'.lastNative = List.zipWith lcp drafts natives ∧
      (∀ id, id ∈ s'.previous ↔ id ∈ ids) ∧
      ∀ i id native row, ids[i]? = some id → natives[i]? = some native →
        (src.rows ids.length)[i]? = some row →
        ∃ draft t, drafts[i]? = some draft ∧ s.before o ids src natives accepted i = some t ∧
          CallRow s ids src accepted i id row native draft t s' := by
  obtain ⟨s0, drafts, s1, hstart, hmix, hsteps⟩ := mixCore_spec hinv o h.args h.compares
  obtain ⟨s0', hstart', hinv0, hk, hm, henv, hlast, hfed, hslots⟩ :=
    start_spec hinv o h.args.nodup accepted
  obtain rfl : s0 = s0' := Option.some.inj (hstart.symm.trans hstart')
  have hinv1 := hsteps.inv hinv0
  have hfst : (ids.zip natives).map Prod.fst = ids :=
    List.map_fst_zip h.args.natives_length.ge
  have hlen : drafts.length = ids.length := by
    rw [hsteps.length, List.length_zip, h.args.natives_length, Nat.min_self]
  have hlastNative : s1.lastNative = List.zipWith lcp drafts natives := by
    have hsnd : (ids.zip natives).map Prod.snd = natives :=
      List.map_snd_zip h.args.natives_length.le
    rw [hsteps.lastNative, hlast, List.nil_append]
    conv_rhs => rw [← hsnd, List.zipWith_map_right]
  refine ⟨drafts, { s1 with calls := s1.calls + 1 }, ?_, hlen, ⟨hinv1.cache, hinv1.previous⟩,
    hlastNative, ?_, ?_⟩
  · rw [h.eq, hmix]
    rfl
  · intro id
    rw [hsteps.mem_previous, hfst]
    constructor
    · rintro (hid | hid)
      · by_contra hnot
        have hnone := hslots id
        rw [if_neg hnot, AList.lookup_eq_none] at hnone
        exact hnone hid
      · exact hid
    · exact Or.inr
  · intro i id native row hid hnative hrow
    have hi : (ids.zip natives)[i]? = some (id, native) := by
      simp [List.getElem?_zip_eq_some, hid, hnative]
    obtain ⟨row', draft, t, t', hrow', hdraft, hpre, hrun, hstep, hslot, hafter⟩ :=
      hsteps.get (by rw [hfst]; exact h.args.nodup) hi
    rw [Nat.zero_add] at hrow' hrun
    obtain rfl : row = row' := Option.some.inj (hrow.symm.trans hrow')
    obtain ⟨hk', hm', henv'⟩ := hpre.settings
    have hpre_nodup : (((ids.zip natives).take i).map Prod.fst).Nodup := by
      rw [List.map_take, hfst]
      exact h.args.nodup.sublist (List.take_sublist _ _)
    refine ⟨draft, t, hdraft, by simp [before, hstart, hpre.rows_eq], ?_⟩
    exact {
      inv := hpre.inv hinv0
      k := hk'.trans hk
      maxModelLen := hm'.trans hm
      env := henv'.trans henv
      slot := by rw [hslot, hslots, if_pos (List.mem_of_getElem? hid)]
      quiet := fun hquiet => by
        rw [donated_eq_nil hquiet, run_nil, Option.some.injEq] at hfed
        rw [hpre.cache_eq hpre_nodup ?_, hfed]
        intro j id' native' row' p hj hrow' hp
        have hj' : (ids.zip natives)[j]? = some (id', native') := by
          rw [List.getElem?_take] at hj
          split at hj
          · exact hj
          · simp at hj
        rw [hslots] at hp
        split at hp
        · obtain ⟨q, hq, rfl⟩ := Option.map_eq_some_iff.mp hp
          obtain ⟨k, rowk, hk1, hk2, hsame⟩ := hquiet id' q hq
          obtain rfl : j = k := by
            have hj1 := (List.getElem?_zip_eq_some.mp hj').1
            exact (List.getElem?_inj (List.getElem?_eq_some_iff.mp hj1).1 h.args.nodup).mp
              (hj1.trans hk1.symm)
          rw [Nat.zero_add, hk2] at hrow'
          cases hrow'
          rw [(gradeAt_fields _ _).1]
          exact hsame
        · simp at hp
      step := ⟨t', hrun, hstep, hafter⟩
      lastNative := by simp [hlastNative, List.getElem?_zipWith, hdraft, hnative] }

/-- What a call that returns drafts has done. -/
theorem call_ok_spec [F64] {o : HashOrder ReqId} {s s' : HybridMixer} {ids : List ReqId}
    {src : Source} {natives drafts : List (List Token)} {accepted : Option (List ℤ)} (hinv : s.Inv)
    (hcall : s.call o ids src natives accepted = some (.ok drafts, s')) :
    s.Accepts o ids src natives accepted ∧ drafts.length = ids.length ∧
      s'.lastNative = List.zipWith lcp drafts natives ∧ (∀ id, id ∈ s'.previous ↔ id ∈ ids) ∧
      ∀ i id native row, ids[i]? = some id → natives[i]? = some native →
        (src.rows ids.length)[i]? = some row →
        ∃ draft t, drafts[i]? = some draft ∧ s.before o ids src natives accepted i = some t ∧
          CallRow s ids src accepted i id row native draft t s' := by
  rcases call_cases o s ids src natives accepted with ⟨e, he⟩ | hacc
  · rw [he] at hcall
    cases hcall
  · obtain ⟨drafts', t', hcall', hlen, _, hlast, hkeys, hrows⟩ := hacc.rows hinv
    rw [hcall'] at hcall
    cases hcall
    exact ⟨hacc, hlen, hlast, hkeys, hrows⟩

section callRow
variable [F64] {s t s' : HybridMixer} {ids : List ReqId} {src : Source}
  {accepted : Option (List ℤ)} {i : ℕ} {id : ReqId} {row native draft : List Token}

/-- A row of an accepted call under the legacy split. -/
lemma CallRow.legacy (h : CallRow s ids src accepted i id row native draft t s')
    (hc : (src.classifier ids.length).Compares src.same (src.rows ids.length))
    (hrow : (src.rows ids.length)[i]? = some row) (hdiv : s.env.diverge = false) :
    ∃ cache tail t', cache.Inv ∧ LegacyRow t src.same row id native cache tail draft t' := by
  obtain ⟨t', hrun, _⟩ := h.step
  rw [row_legacy (by rw [h.env, hdiv]; simp)] at hrun
  obtain ⟨cache, tail, draft', t'', hrun', hcinv, _, hspec⟩ :=
    legacyRow_spec h.inv.cache hc hrow id native
  rw [hrun] at hrun'
  cases hrun'
  exact ⟨cache, tail, t', hcinv, hspec⟩

/-- A row of an accepted call under the divergence split. -/
lemma CallRow.diverge (h : CallRow s ids src accepted i id row native draft t s')
    (hc : (src.classifier ids.length).Compares src.same (src.rows ids.length))
    (hrow : (src.rows ids.length)[i]? = some row) (hdiv : s.env.diverge = true)
    (ha : ∀ v, accepted = some v → i < v.length) :
    ∃ opened cand bucket t',
      DivergeRow t src.same row id native (feedbackAt accepted i) opened cand bucket draft t' := by
  obtain ⟨t', hrun, _⟩ := h.step
  rw [row_diverge (by rw [h.env, hdiv]) ha] at hrun
  obtain ⟨cache, wins, observed, cand, bucket, draft', t'', hrun', _, _, hspec⟩ :=
    divergeRow_spec h.inv.cache hc hrow id native (feedbackAt accepted i)
  rw [hrun] at hrun'
  cases hrun'
  exact ⟨_, cand, bucket, t', hspec⟩

end callRow

/-! ## Reachable mixers -/

/-- An operation on a mixer or on its shared cache. -/
inductive Op where
  | call (o : HashOrder ReqId) (ids : List ReqId) (src : Source) (natives : List (List Token))
      (accepted : Option (List ℤ))
  | addSequence (tokens : List Token)
  | addPrompt (tokens : List Token)

/-- The mixer after an operation. -/
def op [F64] (s : HybridMixer) : Op → Option HybridMixer
  | .call o ids src natives accepted => (s.call o ids src natives accepted).map Prod.snd
  | .addSequence tokens => (s.cache.add tokens).map fun cache => { s with cache }
  | .addPrompt tokens => (s.cache.addPrompt tokens).map fun cache => { s with cache }

/-- The mixers that operations lead to from a new one. -/
def Reachable [F64] (s : HybridMixer) : Prop :=
  ∃ cfg env k maxModelLen s0 ops,
    HybridMixer.new cfg env k maxModelLen = .ok s0 ∧ run op s0 ops = some s

lemma inv_empty (cfg : Config) (env : MixerEnv) (k maxModelLen : ℕ) (hk : 0 < k) :
    (empty cfg env k maxModelLen hk).Inv where
  cache := Cache.inv_new cfg
  previous := fun id p hp => by simp [empty] at hp

lemma inv_new {cfg : Config} {env : MixerEnv} {k maxModelLen : ℕ} {s : HybridMixer}
    (h : HybridMixer.new cfg env k maxModelLen = .ok s) : s.Inv := by
  unfold HybridMixer.new at h
  split at h
  · rw [← Except.ok.inj h]
    exact inv_empty cfg env k maxModelLen _
  · simp at h

/-- A call ends, with an exception and no effect or with one draft a request. -/
lemma call_total [F64] {s : HybridMixer} (h : s.Inv) (o : HashOrder ReqId) (ids : List ReqId)
    (src : Source) (natives : List (List Token)) (accepted : Option (List ℤ)) :
    (∃ e, s.call o ids src natives accepted = some (.error e, s)) ∨
      ∃ drafts s', s.call o ids src natives accepted = some (.ok drafts, s') ∧
        drafts.length = ids.length ∧ s'.Inv := by
  rcases call_cases o s ids src natives accepted with herr | hacc
  · exact Or.inl herr
  · obtain ⟨drafts, s', hcall, hlen, hinv, _⟩ := hacc.rows h
    exact Or.inr ⟨drafts, s', hcall, hlen, hinv⟩

/-- Every operation keeps the invariant. -/
lemma Inv.op [F64] {s s' : HybridMixer} (h : s.Inv) {operation : Op}
    (hop : s.op operation = some s') : s'.Inv := by
  cases operation with
  | call o ids src natives accepted =>
    obtain ⟨⟨r, t⟩, hcall, rfl⟩ := Option.map_eq_some_iff.mp hop
    rcases call_total h o ids src natives accepted with ⟨e, he⟩ | ⟨drafts, t', ht, _, hinv⟩
    · rw [he] at hcall
      cases hcall
      exact h
    · rw [ht] at hcall
      cases hcall
      exact hinv
  | addSequence tokens =>
    obtain ⟨c, hc, hcinv, _⟩ := h.cache.add tokens
    rw [HybridMixer.op, hc] at hop
    cases hop
    exact ⟨hcinv, h.previous⟩
  | addPrompt tokens =>
    obtain ⟨c, hc, hcinv, _⟩ := h.cache.addPrompt tokens
    rw [HybridMixer.op, hc] at hop
    cases hop
    exact ⟨hcinv, h.previous⟩

/-- Every reachable mixer keeps the invariant. -/
lemma Reachable.inv [F64] {s : HybridMixer} (h : Reachable s) : s.Inv := by
  obtain ⟨cfg, env, k, maxModelLen, s0, ops, hnew, hrun⟩ := h
  exact run_inv (fun _ _ _ hinv hop => hinv.op hop) (inv_new hnew) hrun

/-- A run from a new mixer with settings in range. -/
lemma Reachable.of_run [F64] {cfg : Config} {env : MixerEnv} {k maxModelLen : ℕ} {hk : 0 < k}
    (hb : k ≤ 64 ∧ 1 ≤ maxModelLen ∧ maxModelLen ≤ 16777216) {ops : List Op} {s : HybridMixer}
    (h : run op (empty cfg env k maxModelLen hk) ops = some s) : Reachable s := by
  refine ⟨cfg, env, k, maxModelLen, _, ops, ?_, h⟩
  simp only [HybridMixer.new]
  rw [dif_pos ⟨⟨hk, hb.1⟩, hb.2⟩]

/-- A run from a new mixer and a call after it, by evaluation of what they return. -/
lemma Reachable.exists_call [F64] {β : Type} (cfg : Config) (env : MixerEnv) (k maxModelLen : ℕ)
    (hk : 0 < k) (hb : k ≤ 64 ∧ 1 ≤ maxModelLen ∧ maxModelLen ≤ 16777216) (ops : List Op)
    (o : HashOrder ReqId) (ids : List ReqId) (src : Source) (natives : List (List Token))
    (accepted : Option (List ℤ)) (drafts : List (List Token)) (view : HybridMixer → HybridMixer → β)
    (b : β)
    (h : ((run op (empty cfg env k maxModelLen hk) ops).bind fun s =>
      (s.call o ids src natives accepted).map fun out => (out.1.toOption, view s out.2))
        = some (some drafts, b)) :
    ∃ s s', Reachable s ∧ s.call o ids src natives accepted = some (.ok drafts, s') ∧
      view s s' = b := by
  obtain ⟨s, hs, hout⟩ := Option.bind_eq_some_iff.mp h
  obtain ⟨⟨r, s'⟩, hcall, hr⟩ := Option.map_eq_some_iff.mp hout
  obtain ⟨hdrafts, hview⟩ := Prod.mk.inj hr
  cases r with
  | error e => cases hdrafts
  | ok drafts' =>
    obtain rfl : drafts' = drafts := Option.some.inj hdrafts
    exact ⟨s, s', Reachable.of_run hb hs, hcall, hview⟩

end HybridMixer
end SuffixHybrid
