import SuffixHybrid.Mixer.Echo
import SuffixHybrid.Wrapper.Feedback
import SuffixHybrid.Wrapper.Mirror

/-!
# The probe and the mix it skips

The probe looks up the bare tail of a mirror row and asks for a continuation of some length
(`mirrorProbe_eq_false_iff`). The mixer looks up the context with the native tokens that it keeps, and
splices whatever it finds. So a skipped mix would have published the native draft exactly where what the
mixer finds repeats it (`RepeatsNative`, `probe_skips_echo_iff`).
-/

namespace SuffixHybrid
open Lib

namespace HybridMixer

/-- What a legacy row splices from its lookup begins the native tokens of the slots that it fills. -/
def WritesNative [F64] (t : HybridMixer) (same : List Token → List Token → Bool) (row : List Token)
    (id : ReqId) (native : List Token) : Prop :=
  let slot := t.previous.lookup id
  let cap := t.rowCap row.length native
  let kept := t.rowKept same row slot t.cache cap
  let start := tailStart (slot.bind (·.suffixEstimate)) kept
  continues same row slot = true → ∀ tail score m,
    t.cache.speculate (contextAfter same row slot ++ (native.take (kept - 1))) cap = some (tail, score, m) →
    tail.take (cap - start) <+: native.drop start

/-- A draft with a tail begins the native draft exactly if its tail begins the rest of it. -/
lemma legacyDraft_prefix_iff {native tail : List Token} {cap kept : ℕ} (gate : Option ℚ)
    (hle : kept ≤ cap) (hcap : cap ≤ native.length) :
    legacyDraft true native tail cap kept gate <+: native ↔
      tail.take (cap - tailStart gate kept) <+: native.drop (tailStart gate kept) := by
  unfold legacyDraft
  by_cases hnil : tail = []
  · rw [if_pos (Or.inr hnil), hnil, List.take_nil]
    exact iff_of_true (List.take_prefix _ _) List.nil_prefix
  · rw [if_neg (by simp [hnil]), spliced_eq gate hle hcap]
    conv_lhs => rw [← List.take_append_drop (tailStart gate kept) native]
    have hlen : (tailStart gate kept) ≤ native.length := ((tailStart_le gate kept).trans hle).trans hcap
    rw [List.take_append_of_le_length (by rw [List.length_take_of_le hlen]), List.take_take, Nat.min_self,
      List.prefix_append_right_inj]

/-- The draft of a legacy row begins the native draft exactly if what it splices does. -/
lemma LegacyRow.prefix_iff [F64] {t t' : HybridMixer} {same : List Token → List Token → Bool}
    {row native tail draft : List Token} {id : ReqId} {cache : Cache}
    (h : LegacyRow t same row id native cache tail draft t') :
    draft <+: native ↔ WritesNative t same row id native := by
  have hcap := rowCap_le_length t row.length native
  obtain ⟨score, m, hlookup⟩ := h.lookup
  have hdraft := h.draft_eq
  cases hcont : continues same row (t.previous.lookup id) with
  | true =>
    have hcache : cache = t.cache := h.cache_eq fun p hp => by
      simpa [continues, hp] using hcont
    rw [hcache] at hlookup hdraft
    have hle : t.rowKept same row (t.previous.lookup id) t.cache (t.rowCap row.length native)
        ≤ t.rowCap row.length native := keptPrefix_le _ _ _
    rw [hdraft, hcont, legacyDraft_prefix_iff _ hle hcap]
    constructor
    · intro hpre _ tail' score' m' hlookup'
      rw [hlookup] at hlookup'
      cases hlookup'
      exact hpre
    · intro hwrites
      exact hwrites hcont tail score m hlookup
  | false =>
    rw [hcont, legacyDraft, if_pos (Or.inl rfl)] at hdraft
    rw [hdraft]
    refine iff_of_true (List.take_prefix _ _) fun h => ?_
    rw [hcont] at h
    cases h

end HybridMixer

namespace Wrapper
variable {cfg : WrapSettings} {s : Wrapper} {t : Step}

/-! ## The probe -/

/-- The cache is warm, no heartbeat is due, and every request of the batch has a mirror row of which the
cache knows no continuation of `minLen` tokens. -/
structure NoEvidence [F64] (cfg : WrapSettings) (s : Wrapper) (t : Step) : Prop where
  warm : s.mixer.cacheTokens ≠ 0
  calm : cfg.hbDue s.steps = false
  nonempty : t.ids ≠ []
  rows : ∀ id ∈ t.ids, ∃ row, s.mirror.lookup id = some row ∧
    (((lastTokens cfg.depth row).length : ℤ) < cfg.indexN ∨ ∃ suffix score m,
      s.mixer.cache.speculate (lastTokens cfg.depth row) (if s.w = 0 then t.k + 2 else s.w)
        = some (suffix, score, m) ∧ (suffix.length : ℤ) < cfg.minLen)

lemma probeRows_eq_false_iff [F64] (hcool : cfg.cooldown ≤ 0) (w : ℕ) (ids : List ReqId) :
    s.probeRows cfg w ids = some false ↔ ∀ id ∈ ids, ∃ row, s.mirror.lookup id = some row ∧
      (((lastTokens cfg.depth row).length : ℤ) < cfg.indexN ∨ ∃ suffix score m,
        s.mixer.cache.speculate (lastTokens cfg.depth row) w = some (suffix, score, m) ∧
          (suffix.length : ℤ) < cfg.minLen) := by
  induction ids with
  | nil => simp [probeRows]
  | cons id ids ih =>
    rw [probeRows, List.forall_mem_cons]
    cases hrow : s.mirror.lookup id with
    | none => simp
    | some row =>
      dsimp only
      by_cases hshort : ((lastTokens cfg.depth row).length : ℤ) < cfg.indexN
      · rw [if_pos hshort, ih]
        simp [hshort]
      · rw [if_neg hshort]
        cases hspec : s.mixer.cache.speculate (lastTokens cfg.depth row) w with
        | none => simp [hshort, hspec]
        | some found =>
          obtain ⟨suffix, score, m⟩ := found
          simp only [Option.bind_eq_bind, Option.bind_some]
          by_cases hlong : cfg.minLen ≤ suffix.length
          · rw [if_pos ⟨hlong, Or.inl hcool⟩]
            have hnot : ¬ (suffix.length : ℤ) < cfg.minLen := not_lt.mpr hlong
            simp [hshort, hspec, hnot]
          · rw [if_neg fun h => hlong h.1, ih]
            simp [hshort, hspec, not_le.mp hlong]

/-- With the cooldown disabled, the probe gates a step exactly where there is no evidence. -/
lemma mirrorProbe_eq_false_iff [F64] (hcool : cfg.cooldown ≤ 0) :
    s.mirrorProbe cfg t = some false ↔ s.NoEvidence cfg t := by
  unfold mirrorProbe
  split
  case isTrue h =>
    simp only [Bool.or_eq_true, decide_eq_true_eq, List.isEmpty_iff] at h
    constructor
    · intro hfalse
      cases hfalse
    · intro hno
      rcases h with (hcold | hdue) | hnil
      · exact absurd hcold hno.warm
      · exact absurd (hdue.symm.trans hno.calm) Bool.true_eq_false.mp
      · exact absurd hnil hno.nonempty
  case isFalse h =>
    simp only [Bool.or_eq_true, decide_eq_true_eq, List.isEmpty_iff, not_or, Bool.not_eq_true] at h
    rw [probeRows_eq_false_iff hcool]
    exact ⟨fun hrows => ⟨h.1.1, h.1.2, h.2, hrows⟩, fun hno => hno.rows⟩

/-! ## Publishing -/

lemma differs_eq_false_iff {row native : List Token} : differs row native = false ↔ row <+: native := by
  rw [List.prefix_iff_eq_take, differs, Bool.and_eq_false_iff, Bool.not_eq_false', List.isEmpty_iff,
    bne_eq_false_iff_eq]
  constructor
  · rintro (rfl | heq)
    · rw [List.length_nil, List.take_zero]
    · exact heq
  · exact Or.inr

/-- The mixed rows that are written repeat the native draft. -/
def Repeats (cfg : WrapSettings) (t : Step) (mixed : Draft) : Prop :=
  ∀ (i : ℕ) (r : BatchRow) (row : List Token), t.batch[i]? = some r → mixed[i]? = some row →
    (cfg.probabilistic && !r.greedy) = false → row <+: r.native

lemma changed_eq_false_iff {mixed : Draft} : changed cfg t mixed = false ↔ Repeats cfg t mixed := by
  have hget (i : ℕ) : (List.zipWith differs (effective cfg t mixed) t.native)[i]?
      = (t.batch[i]?).bind fun r => (mixed[i]?).map fun row =>
        differs (if cfg.probabilistic && !r.greedy then [] else row) r.native := by
    rw [List.getElem?_zipWith, effective, List.getElem?_zipWith, Step.native, List.getElem?_map]
    cases t.batch[i]? <;> cases mixed[i]? <;> rfl
  rw [changed, List.any_eq_false]
  constructor
  · intro hall i r row hr hrow hgate
    have hmem := List.mem_of_getElem? ((hget i).trans (by rw [hr, hrow]; rfl))
    have hsame := hall _ hmem
    rw [hgate, id_eq, Bool.not_eq_true] at hsame
    exact differs_eq_false_iff.mp hsame
  · intro hall b hb
    obtain ⟨i, hi⟩ := List.mem_iff_getElem?.mp hb
    rw [hget i] at hi
    obtain ⟨r, hr, hrest⟩ := Option.bind_eq_some_iff.mp hi
    obtain ⟨row, hrow, rfl⟩ := Option.map_eq_some_iff.mp hrest
    rw [id_eq, Bool.not_eq_true]
    split
    case isTrue => rfl
    case isFalse hgate =>
      exact differs_eq_false_iff.mpr (hall i r row hr hrow (by simpa using hgate))

/-- What is written over a native draft leaves it as it is only if it repeats it. -/
lemma repeats_of_written {mixed : Draft} (h : written (effective cfg t mixed) t.native = t.native) :
    Repeats cfg t mixed := by
  intro i r row hr hrow hgate
  have hi : (written (effective cfg t mixed) t.native)[i]? = some (row ++ r.native.drop row.length) := by
    rw [written, List.getElem?_zipWith, effective, List.getElem?_zipWith, Step.native, List.getElem?_map,
      hr, hrow]
    simp [hgate]
  rw [h, Step.native, List.getElem?_map, hr, Option.map_some, Option.some_inj] at hi
  rw [hi]
  exact List.prefix_append _ _

/-- Where no local work fails, `_publish` publishes the native draft exactly if no row differs. -/
lemma publish_native_iff (hfast : ∀ site, t.fast site = false) (mixed : Draft) :
    (s.publish cfg t mixed).draft = .ok t.native ↔ Repeats cfg t mixed := by
  rw [← changed_eq_false_iff]
  unfold publish
  dsimp only
  cases hchanged : changed cfg t mixed with
  | false => simp [hfast]
  | true =>
    have hne : written (effective cfg t mixed) t.native ≠ t.native := by
      intro heq
      rw [changed_eq_false_iff.mpr (repeats_of_written heq)] at hchanged
      cases hchanged
    simp [hfast, hne]

/-! ## The skipped mix -/

/-- The arguments of the mix: the rows of the mirror. -/
def mixSource (s : Wrapper) (t : Step) : Source :=
  .numpy (.i64 (s.mirrorCounts t.ids)) (.i64 true (s.mirrorGrid t.ids))

/-- The mix accepts its arguments, and what it splices into the rows that are written begins the native
tokens of the slots that it fills. -/
structure RepeatsNative [F64] (cfg : WrapSettings) (s : Wrapper) (t : Step) : Prop where
  accepts : s.mixer.Accepts t.order t.ids (s.mixSource t) t.native (some (s.fastFeedback cfg t))
  rows : ∀ (i : ℕ) (r : BatchRow) (m : HybridMixer), t.batch[i]? = some r →
    (cfg.probabilistic && !r.greedy) = false →
    s.mixer.before t.order t.ids (s.mixSource t) t.native (some (s.fastFeedback cfg t)) i = some m →
    m.WritesNative boundaryMatches (s.mirrorRow r.id) r.id r.native

/-- The full path on this mirror ends, and publishes the native draft exactly if what the mixer finds
repeats it. -/
lemma mixAndPublish_native_iff [F64] (hinv : s.mixer.Inv) (hdiv : s.mixer.env.diverge = false)
    (hfast : ∀ site, t.fast site = false) :
    ∃ out, s.mixAndPublish cfg t = some out ∧
      (out.draft = .ok t.native ↔ s.RepeatsNative cfg t) := by
  unfold mixAndPublish
  rcases HybridMixer.call_cases t.order s.mixer t.ids (s.mixSource t) t.native
    (some (s.fastFeedback cfg t)) with ⟨e, he⟩ | hacc
  · have hmix : s.fastMix cfg t = some (.error e, s.mixer) := he
    rw [hmix]
    refine ⟨_, rfl, ?_⟩
    constructor
    · intro hok
      cases hok
    · intro hrepeats
      obtain ⟨drafts, m, hcall, _⟩ := hrepeats.accepts.rows hinv
      rw [he] at hcall
      cases hcall
  · obtain ⟨mixed, m, hcall, hlen, _, _, _, hrows⟩ := hacc.rows hinv
    have hmix : s.fastMix cfg t = some (.ok mixed, m) := hcall
    rw [hmix]
    refine ⟨_, rfl, ?_⟩
    simp only [publishChecked, checkWidths_ok (drafts_fit hinv hmix)]
    rw [publish_native_iff hfast]
    have hbatch {i : ℕ} {r : BatchRow} (hr : t.batch[i]? = some r) : t.ids[i]? = some r.id ∧
        t.native[i]? = some r.native ∧
        ((s.mixSource t).rows t.ids.length)[i]? = some (s.mirrorRow r.id) := by
      have hid : t.ids[i]? = some r.id := by rw [Step.ids, List.getElem?_map, hr, Option.map_some]
      refine ⟨hid, by rw [Step.native, List.getElem?_map, hr, Option.map_some], ?_⟩
      rw [mixSource, rows_mirror, List.getElem?_map, hid, Option.map_some]
    constructor
    · intro hrep
      refine ⟨hacc, fun i r before hr hgate hbefore => ?_⟩
      obtain ⟨hid, hnative, hrow⟩ := hbatch hr
      obtain ⟨draft, before', hdraft, hbefore', hcallRow⟩ := hrows i r.id r.native _ hid hnative hrow
      rw [hbefore] at hbefore'
      cases hbefore'
      obtain ⟨_, _, _, _, hlegacy⟩ := hcallRow.legacy hacc.compares hrow hdiv
      exact hlegacy.prefix_iff.mp (hrep i r draft hr hdraft hgate)
    · intro hrepeats i r row hr hrow' hgate
      obtain ⟨hid, hnative, hrow⟩ := hbatch hr
      obtain ⟨draft, before, hdraft, hbefore, hcallRow⟩ := hrows i r.id r.native _ hid hnative hrow
      obtain rfl : draft = row := Option.some.inj (hdraft.symm.trans hrow')
      obtain ⟨_, _, _, _, hlegacy⟩ := hcallRow.legacy hacc.compares hrow hdiv
      exact hlegacy.prefix_iff.mpr (hrepeats.rows i r before hr hgate hbefore)

/-- With the cooldown disabled, the probe skips a mix exactly where the cache has no continuation of
`minLen` tokens for any row. Then the mix would have published the native draft if and only if it accepts
its arguments and, for every written row that continues its request, what it finds behind the context and
the native tokens that it keeps begins the native tokens of the slots that it fills. -/
theorem probe_skips_echo_iff [F64] (hm : HybridMixer.Reachable s.mixer)
    (hdiv : s.mixer.env.diverge = false) (hcool : cfg.cooldown ≤ 0)
    (hfast : ∀ site, t.fast site = false) :
    (s.mirrorProbe cfg t = some false ↔ s.NoEvidence cfg t) ∧
      ((s.mirrorProbe cfg t = some false →
          ∃ out, s.mixAndPublish cfg t = some out ∧ out.draft = .ok t.native) ↔
        (s.mirrorProbe cfg t = some false → s.RepeatsNative cfg t)) := by
  refine ⟨mirrorProbe_eq_false_iff hcool, forall_congr' fun _ => ?_⟩
  obtain ⟨out, hout, hiff⟩ : ∃ out, s.mixAndPublish cfg t = some out ∧
      (out.draft = .ok t.native ↔ s.RepeatsNative cfg t) := mixAndPublish_native_iff hm.inv hdiv hfast
  rw [hout, ← hiff]
  constructor
  · rintro ⟨out', hout', hok⟩
    cases hout'
    exact hok
  · intro hok
    exact ⟨out, rfl, hok⟩

/-- A sequence and a request. -/
def seenOps : List HybridMixer.Op :=
  [.addSequence [1, 2], .call (HashOrder.stored ReqId) ["a"] (.lists [[5]]) [[9, 9]] none]

/-- A mixer that has seen them. -/
def seenMixer : HybridMixer := (run HybridMixer.op emptyMixer seenOps).getD emptyMixer

lemma seenMixer_reachable : HybridMixer.Reachable seenMixer := by
  have hsome : (run HybridMixer.op emptyMixer seenOps).isSome = true := by decide
  obtain ⟨m, hrun⟩ := Option.isSome_iff_exists.mp hsome
  rw [seenMixer, hrun, Option.getD_some]
  exact HybridMixer.Reachable.of_run (by decide) hrun

/-- A wrapper whose mirror row no cached sequence continues. -/
def unseen : Wrapper :=
  { start seenMixer 2 with mirror := (∅ : Map ReqId (List Token)).put "a" [5, 7], steps := 1 }

/-- A step of the request. -/
def probed (native : List Token) (h : native.length = 2) : Step where
  k := 2
  ncols := 2
  batch := [{ id := "a", tokens := [5, 7], total := 2, native, sampled := 0, rejected := 0 }]
  order := HashOrder.stored ReqId
  onEntry := ⟨fun _ _ => 0, fun _ => 0, fun _ => 0, fun _ => 0⟩
  inFlight := ⟨fun _ _ => 0, fun _ => 0, fun _ => 0, fun _ => 0⟩
  hook := false
  heard := []
  fast := fun _ => false
  sync := fun _ => false
  native_length := fun r hr => by
    rw [List.mem_singleton.mp hr]
    exact h
  tokens_length := fun r hr => by
    rw [List.mem_singleton.mp hr]
    rfl

/-- The cooldown is disabled. -/
def eager : WrapSettings := { rank := 0, worldSize := 1, cooldown := 0, indexN := 1 }

/-- A native draft that no cached sequence continues either. -/
theorem probe_skips_echo_iff_unseen : unseen.NoEvidence eager (probed [9, 9] rfl) ∧
    unseen.RepeatsNative eager (probed [9, 9] rfl) := by
  have hcool : eager.cooldown ≤ 0 := by decide
  obtain ⟨hprobe, hiff⟩ := probe_skips_echo_iff (s := unseen) (t := probed [9, 9] rfl)
    seenMixer_reachable (by decide) hcool fun _ => rfl
  have hfalse : unseen.mirrorProbe eager (probed [9, 9] rfl) = some false := by decide
  have hdraft : (unseen.mixAndPublish eager (probed [9, 9] rfl)).map (fun out => out.draft.toOption)
      = some (some [[9, 9]]) := by with_unfolding_all decide
  obtain ⟨out, hout, hok⟩ := Option.map_eq_some_iff.mp hdraft
  refine ⟨hprobe.mp hfalse, hiff.mp (fun _ => ⟨out, hout, ?_⟩) hfalse⟩
  cases hd : out.draft with
  | error e =>
    rw [hd] at hok
    cases hok
  | ok draft =>
    rw [hd] at hok
    exact congrArg Except.ok (Option.some.inj hok)

/-- The mixer looks up the native tokens behind the context, where it finds what the probe did not look
for. -/
theorem skipped_mix_differs : ¬ ∀ (cfg : WrapSettings) (s : Wrapper) (t : Step),
    HybridMixer.Reachable s.mixer → s.mixer.env.diverge = false → cfg.cooldown ≤ 0 →
    (∀ site, t.fast site = false) → s.mirrorProbe cfg t = some false →
    ∃ out, s.mixAndPublish cfg t = some out ∧ out.draft = .ok t.native := by
  intro hall
  obtain ⟨out, hout, hok⟩ := hall eager unseen (probed [1, 9] rfl) seenMixer_reachable (by decide)
    (by decide) (fun _ => rfl) (by decide)
  have hdraft : (unseen.mixAndPublish eager (probed [1, 9] rfl)).map (fun out => out.draft.toOption)
      = some (some [[1, 2]]) := by with_unfolding_all decide
  rw [hout, Option.map_some, hok] at hdraft
  exact absurd (Option.some.inj (Option.some.inj hdraft)) (by decide)

end Wrapper
end SuffixHybrid
