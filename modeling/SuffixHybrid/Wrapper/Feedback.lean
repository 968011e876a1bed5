import SuffixHybrid.Wrapper.Bodies

/-!
# The feedback of the wrapper

The wrapper reads the verifier's outcome against the widths that it recorded, the mixer against the
lengths of its own last proposals. The two tables are kept by different code: a mix replaces both, a
skipped mix records the native width and leaves the mixer as it is. `Tables` is how a body leaves them
and `WidthsFit` is the invariant, no recorded width above the tracked length. It holds along a run as
long as no mix is skipped for a request whose last proposal was shorter than the native draft
(`feedback_admissible`); after one that is, the mixer rejects a full acceptance
(`skipped_mix_rejected`).
-/

namespace SuffixHybrid
open Lib

namespace Wrapper

/-- The feedback of a call is a reading of the recorded widths. -/
def ReadsWidths (s : Wrapper) (ids : List ReqId) (accepted : List ℤ) : Prop :=
  ∀ id a, (id, a) ∈ ids.zip accepted →
    ∃ ns nr, a = acceptedLength ((s.previousWidths.lookup id).getD 0) ns nr

/-- An accepted length is `-1` or at most the recorded width. -/
lemma acceptedLength_spec (previous : ℕ) (ns nr : ℤ) :
    acceptedLength previous ns nr = -1 ∨
      0 ≤ acceptedLength previous ns nr ∧ acceptedLength previous ns nr ≤ previous := by
  simp only [acceptedLength]
  split <;> omega

lemma readsWidths (s : Wrapper) {rows : List (ReqId × ℤ × ℤ)} {ids : List ReqId}
    (hrows : rows.map Prod.fst = ids) : s.ReadsWidths ids (acceptedLengths s.previousWidths rows) := by
  intro id a hmem
  rw [← hrows, acceptedLengths, List.zip_map', List.mem_map] at hmem
  obtain ⟨⟨id', ns, nr⟩, _, heq⟩ := hmem
  cases heq
  exact ⟨ns, nr, rfl⟩

lemma fastFeedback_readsWidths (cfg : WrapSettings) (s : Wrapper) (t : Step) :
    s.ReadsWidths t.ids (s.fastFeedback cfg t) := by
  apply readsWidths
  rw [List.map_map]
  exact List.zipIdx_map_fst 0 t.ids

lemma syncFeedback_readsWidths (s : Wrapper) (t : Step) :
    s.ReadsWidths t.ids (s.syncFeedback t) := by
  apply readsWidths
  rw [List.map_map]
  rfl

/-! ## The invariant -/

/-- No recorded width exceeds the length of the proposal that the mixer tracks. -/
structure WidthsFit (s : Wrapper) : Prop where
  mixer : s.mixer.Inv
  widths : ∀ id p v, s.mixer.previous.lookup id = some p → s.previousWidths.lookup id = some v →
    v ≤ p.length

/-- The mixer can take the feedback of a call: it is `-1` or at most the length of its last proposal,
and the call is not rejected for it. -/
def Honoured (m : HybridMixer) (ids : List ReqId) (accepted : List ℤ) : Prop :=
  (∀ id a, (id, a) ∈ ids.zip accepted → ∀ p, m.previous.lookup id = some p →
    a = -1 ∨ a ≤ p.length) ∧
  ∀ natives, m.validate ids natives (some accepted)
    ≠ .error (.valueError "accepted length exceeds previous proposal")

/-- A reading of fitting widths is honoured. -/
lemma WidthsFit.honoured {s : Wrapper} (hs : s.WidthsFit) {ids : List ReqId} {accepted : List ℤ}
    (h : s.ReadsWidths ids accepted) : Honoured s.mixer ids accepted := by
  have hle (id : ReqId) (a : ℤ) (hmem : (id, a) ∈ ids.zip accepted) :
      -1 ≤ a ∧ ∀ p, s.mixer.previous.lookup id = some p → a = -1 ∨ a ≤ p.length := by
    obtain ⟨ns, nr, rfl⟩ := h id a hmem
    rcases acceptedLength_spec ((s.previousWidths.lookup id).getD 0) ns nr with heq | ⟨hnonneg, hmax⟩
    · exact ⟨heq.ge, fun _ _ => Or.inl heq⟩
    · refine ⟨by omega, fun p hp => Or.inr ?_⟩
      cases hv : s.previousWidths.lookup id with
      | none =>
        rw [hv] at hmax
        simp only [Option.getD_none] at hmax ⊢
        omega
      | some v =>
        have hfit := hs.widths id p v hp hv
        rw [hv] at hmax
        simp only [Option.getD_some] at hmax ⊢
        omega
  refine ⟨fun id a hmem => (hle id a hmem).2, fun natives hbad => ?_⟩
  unfold HybridMixer.validate at hbad
  dsimp only at hbad
  split at hbad
  · simp [HybridMixer.invalidBatch] at hbad
  · split at hbad
    case isTrue hany =>
      obtain ⟨⟨id, a⟩, hmem, hrow⟩ := List.any_eq_true.mp hany
      obtain ⟨hneg, hfit⟩ := hle id a hmem
      simp only [HybridMixer.badFeedback, Bool.or_eq_true, decide_eq_true_eq, Option.any_eq_true]
        at hrow
      rcases hrow with hlt | ⟨p, hp, hlt⟩
      · omega
      · rcases hfit p hp with heq | hfit <;> omega
    case isFalse => simp at hbad

/-! ## How a body leaves the tables -/

/-- The owner skips the mix of a step and records the native width. -/
def SkipsMix [F64] (cfg : WrapSettings) (s : Wrapper) (t : Step) : Prop :=
  (cfg.rank = 0 ∨ cfg.replay = true) ∧ s.triesFast t = true ∧ t.fast .noteSkip = false ∧
    (s.freezes cfg t = true ∨ t.fast .index = false ∧ t.fast .absorb = false ∧
      t.fast .enqueue = false ∧ (s.prepare cfg t).probe cfg t = some false)

/-- The mixer after a mix that returned drafts, with the proposals that it tracks. -/
structure Mixed (m : HybridMixer) (t : Step) (drafts : Draft) : Prop where
  inv : m.Inv
  nodup : t.ids.Nodup
  length : drafts.length = t.ids.length
  tracked : ∀ id p, m.previous.lookup id = some p →
    ∃ draft, (id, draft) ∈ t.ids.zip drafts ∧ p.length = draft.length

/-- How a body leaves the mixer and the recorded widths, and what it hands to the mixer. -/
inductive Tables (s : Wrapper) (t : Step) (skips stale : Prop) : BodyOut → Prop
  | untouched {out : BodyOut} : out.state.mixer = s.mixer →
      out.state.previousWidths = s.previousWidths →
      (∀ e ∈ out.events, ∃ draft, e = .broadcast draft) → Tables s t skips stale out
  | skipped {out : BodyOut} : skips → out.state.mixer = s.mixer →
      out.state.previousWidths = s.previousWidths.update (t.ids.map fun id => (id, t.k)) →
      (∀ e ∈ out.events, ∃ draft, e = .broadcast draft) → Tables s t skips stale out
  | rejected {out : BodyOut} {accepted : List ℤ} : out.state.mixer = s.mixer →
      out.state.previousWidths = s.previousWidths → out.events = [.mix s.mixer t.ids accepted] →
      s.ReadsWidths t.ids accepted → Tables s t skips stale out
  | mixed {out : BodyOut} {accepted : List ℤ} {drafts : Draft} {sent : List Event} :
      Mixed out.state.mixer t drafts →
      out.state.previousWidths = (∅ : Map ReqId ℕ).update (t.ids.zip (drafts.map List.length)) →
      out.events = .mix s.mixer t.ids accepted :: sent →
      (∀ e ∈ sent, ∃ draft, e = .broadcast draft) → s.ReadsWidths t.ids accepted →
      Tables s t skips stale out
  | stale {out : BodyOut} {accepted : List ℤ} {drafts : Draft} : stale →
      Mixed out.state.mixer t drafts → out.state.previousWidths = s.previousWidths →
      out.events = [.mix s.mixer t.ids accepted] → s.ReadsWidths t.ids accepted →
      Tables s t skips stale out

/-- A mix that returned drafts tracks their lengths. -/
lemma Mixed.of_mixNumpy [F64] {m m' : HybridMixer} (hinv : m.Inv) {t : Step} {counts : CountArray}
    {tokens : TokenArray} {drafts : Draft} {accepted : Option (List ℤ)}
    (h : m.mixNumpy t.order t.ids counts tokens t.native accepted = some (.ok drafts, m')) :
    Mixed m' t drafts := by
  obtain ⟨hinv', hnodup, hlen, htracked, _⟩ := HybridMixer.mixNumpy_ok hinv h
  exact ⟨hinv', hnodup, hlen, htracked⟩

/-- A skipped mix records the native width, unless its log line fails. -/
lemma skip_tables {cfg : WrapSettings} {s s' : Wrapper} {t : Step} {skips stale : Prop}
    (hs : s'.shared = s.shared) (h : t.fast .noteSkip = false → skips) :
    Tables s t skips stale (s'.skip cfg t) := by
  obtain ⟨hm, hw, _⟩ := shared_eq hs
  unfold skip
  split
  case isTrue => exact .untouched hm hw (by simp)
  case isFalse hnote =>
    refine .skipped (h (by simpa using hnote)) hm ?_ fun e he => mem_nativeOut he
    rw [← hw]

/-- The publication of a mix records its widths, unless it fails before. -/
lemma publish_record (cfg : WrapSettings) (s : Wrapper) (t : Step) (mixed : Draft) :
    (s.publish cfg t mixed).state.mixer = s.mixer ∧
      ((s.publish cfg t mixed).state.previousWidths
          = (∅ : Map ReqId ℕ).update (t.ids.zip (mixed.map List.length)) ∧
          (∀ e ∈ (s.publish cfg t mixed).events, ∃ draft, e = .broadcast draft) ∨
        (t.fast .noteUnchanged = true ∨ t.fast .write = true) ∧
          (s.publish cfg t mixed).state.previousWidths = s.previousWidths ∧
          (s.publish cfg t mixed).events = []) := by
  obtain ⟨hm, hw, _⟩ := shared_eq (shared_gateRows cfg s t mixed)
  unfold publish
  dsimp only
  split
  case isTrue =>
    split
    case isTrue hnote => exact ⟨hm, Or.inr ⟨Or.inl hnote, hw, rfl⟩⟩
    case isFalse => exact ⟨hm, Or.inl ⟨rfl, fun e he => mem_nativeOut he⟩⟩
  case isFalse =>
    split
    case isTrue hwrite => exact ⟨hm, Or.inr ⟨Or.inr hwrite, hw, rfl⟩⟩
    case isFalse =>
      split
      case isTrue => exact ⟨hm, Or.inl ⟨rfl, fun e he => mem_nativeOut he⟩⟩
      case isFalse => exact ⟨hm, Or.inl ⟨rfl, fun e he => mem_nativeOut he⟩⟩

lemma mixAndPublish_tables [F64] {cfg : WrapSettings} {s s' : Wrapper} {t : Step} {skips : Prop}
    {out : BodyOut} (hinv : s.mixer.Inv) (hs : s'.shared = s.shared)
    (h : s'.mixAndPublish cfg t = some out) :
    Tables s t skips (t.fast .noteUnchanged = true ∨ t.fast .write = true) out := by
  obtain ⟨hm, hw, _⟩ := shared_eq hs
  have hreads : s.ReadsWidths t.ids (s'.fastFeedback cfg t) := by
    have hfast := fastFeedback_readsWidths cfg s' t
    rwa [ReadsWidths, hw] at hfast
  obtain ⟨hrm, hrw, _⟩ := shared_eq (shared_resolveWins cfg s' t)
  unfold mixAndPublish fastMix at h
  rw [hm] at h
  dsimp only at h
  split at h
  case h_1 => cases h
  case h_2 e m hmix =>
    cases h
    exact .rejected (HybridMixer.mixNumpy_error hinv hmix) (hrw.trans hw) rfl hreads
  case h_3 drafts m hmix =>
    cases h
    have hmixed := Mixed.of_mixNumpy hinv hmix
    simp only [publishChecked, checkWidths_ok (drafts_fit hinv hmix)]
    obtain ⟨hpm, hpub⟩ := publish_record cfg { s'.resolveWins cfg t with mixer := m } t drafts
    rcases hpub with ⟨hpw, hev⟩ | ⟨hfault, hpw, hev⟩
    · exact .mixed (by rw [hpm]; exact hmixed) hpw rfl hev hreads
    · exact .stale hfault (by rw [hpm]; exact hmixed) (hpw.trans (hrw.trans hw)) (by rw [hev]) hreads

/-- The fast body skips, mixes or leaves the tables alone. -/
theorem fastBody_tables [F64] {cfg : WrapSettings} {s : Wrapper} {t : Step} {out : BodyOut}
    (hinv : s.mixer.Inv) (htries : s.triesFast t = true) (h : s.fastBody cfg t = some out) :
    Tables s t (s.SkipsMix cfg t) (t.fast .noteUnchanged = true ∨ t.fast .write = true) out := by
  unfold fastBody at h
  split at h
  case isTrue =>
    cases h
    exact .untouched rfl rfl (by simp)
  case isFalse howner =>
    have howner' : cfg.rank = 0 ∨ cfg.replay = true := by
      rw [not_and_or] at howner
      simpa using howner
    split at h
    case isTrue hfreeze =>
      cases h
      exact skip_tables rfl fun hnote => ⟨howner', htries, hnote, Or.inl hfreeze⟩
    case isFalse =>
      unfold fullPath at h
      split at h
      case isTrue =>
        cases h
        exact .untouched rfl rfl (by simp)
      case isFalse hindex =>
        split at h
        case isTrue =>
          cases h
          exact .untouched rfl rfl (by simp)
        case isFalse habsorb =>
          split at h
          case isTrue =>
            cases h
            exact .untouched rfl rfl (by simp)
          case isFalse henqueue =>
            have hprep := shared_prepare cfg s t
            dsimp only at h
            split at h
            case h_1 => cases h
            case h_2 hprobe =>
              cases h
              exact skip_tables hprep fun hnote => ⟨howner', htries, hnote, Or.inr
                ⟨by simpa using hindex, by simpa using habsorb, by simpa using henqueue, hprobe⟩⟩
            case h_3 hprobe =>
              split at h
              case isTrue =>
                cases h
                obtain ⟨hm, hw, _⟩ := shared_eq hprep
                exact .untouched hm hw (by simp)
              case isFalse =>
                exact mixAndPublish_tables hinv ((shared_drain cfg _ t).trans hprep) h

/-- The synchronous body mixes or leaves the tables alone. -/
theorem syncBody_tables [F64] {cfg : WrapSettings} {s : Wrapper} {t : Step} {out : BodyOut}
    (hinv : s.mixer.Inv) (h : s.syncBody cfg t = some out) :
    Tables s t False (t.sync .write = true) out := by
  unfold syncBody at h
  split at h
  case isTrue =>
    cases h
    exact .untouched rfl rfl (by simp)
  split at h
  case isTrue =>
    cases h
    exact .untouched rfl rfl (by simp)
  split at h
  case isTrue =>
    cases h
    exact .untouched rfl rfl (by simp)
  split at h
  case isTrue =>
    cases h
    exact .untouched rfl rfl (by simp)
  have hreads := syncFeedback_readsWidths s t
  unfold syncMixAndPublish syncMix at h
  dsimp only at h
  split at h
  case h_1 => cases h
  case h_2 e m hmix =>
    cases h
    exact .rejected (HybridMixer.mixNumpy_error hinv hmix) rfl rfl hreads
  case h_3 drafts m hmix =>
    cases h
    have hmixed := Mixed.of_mixNumpy hinv hmix
    simp only [syncPublish, checkWidths_ok (drafts_fit hinv hmix)]
    split
    case isTrue hwrite => exact .stale hwrite hmixed rfl rfl hreads
    case isFalse =>
      split
      case isTrue => exact .mixed hmixed rfl rfl (by simp) hreads
      case isFalse => exact .mixed hmixed rfl rfl (by simp) hreads

/-- A body keeps the invariant of the mixer. -/
lemma Tables.inv {s : Wrapper} {t : Step} {skips stale : Prop} {out : BodyOut}
    (h : Tables s t skips stale out) (hinv : s.mixer.Inv) : out.state.mixer.Inv := by
  cases h with
  | untouched hm | skipped _ hm | rejected hm => exact hm ▸ hinv
  | mixed hmixed => exact hmixed.inv
  | stale _ hmixed => exact hmixed.inv

/-- A body that neither skips a mix for a short proposal nor fails between the mix and the record of
its widths keeps the invariant, and its feedback is honoured. -/
lemma Tables.widthsFit {s : Wrapper} {t : Step} {skips stale : Prop} {out : BodyOut}
    (h : Tables s t skips stale out) (hs : s.WidthsFit) (hstale : ¬ stale)
    (hskips : skips → ∀ id ∈ t.ids, ∀ p, s.mixer.previous.lookup id = some p → t.k ≤ p.length) :
    out.state.WidthsFit ∧
      ∀ m ids accepted, Event.mix m ids accepted ∈ out.events → Honoured m ids accepted := by
  cases h with
  | untouched hm hw hev =>
    refine ⟨⟨hm ▸ hs.mixer, by rw [hm, hw]; exact hs.widths⟩, fun m ids accepted hmem => ?_⟩
    obtain ⟨draft, hdraft⟩ := hev _ hmem
    cases hdraft
  | skipped hskip hm hw hev =>
    refine ⟨⟨hm ▸ hs.mixer, fun id p v hp hv => ?_⟩, fun m ids accepted hmem => ?_⟩
    · rw [hm] at hp
      rw [hw] at hv
      rcases Map.of_lookup_update hv with hmem | ⟨hold, _⟩
      · obtain ⟨id', hid, heq⟩ := List.mem_map.mp hmem
        cases heq
        exact hskips hskip id hid p hp
      · exact hs.widths id p v hp hold
    · obtain ⟨draft, hdraft⟩ := hev _ hmem
      cases hdraft
  | rejected hm hw hev hreads =>
    refine ⟨⟨hm ▸ hs.mixer, by rw [hm, hw]; exact hs.widths⟩, fun m ids accepted hmem => ?_⟩
    rw [hev, List.mem_singleton] at hmem
    cases hmem
    exact hs.honoured hreads
  | @mixed accepted drafts sent hmixed hw hev hsent hreads =>
    refine ⟨⟨hmixed.inv, fun id p v hp hv => ?_⟩, fun m ids accepted hmem => ?_⟩
    · obtain ⟨draft, hdraft, hlen⟩ := hmixed.tracked id p hp
      -- the batch names a request once, so the width and the proposal are of the same row
      have hwidth : (id, draft.length) ∈ t.ids.zip (drafts.map List.length) := by
        rw [List.zip_map_right]
        exact List.mem_map_of_mem hdraft
      rw [hw, Map.lookup_update_zip hmixed.nodup hwidth] at hv
      cases hv
      exact hlen.ge
    · rw [hev] at hmem
      rcases List.mem_cons.mp hmem with heq | hmem
      · cases heq
        exact hs.honoured hreads
      · obtain ⟨draft, hdraft⟩ := hsent _ hmem
        cases hdraft
  | stale hbad => exact absurd hbad hstale

/-! ## The runs -/

/-- No mix is skipped for a request whose last proposal is shorter than the native draft, and nothing
fails between a mix and the record of its widths. -/
structure Sound [F64] (cfg : WrapSettings) (s : Wrapper) (t : Step) : Prop where
  skips : s.SkipsMix cfg t →
    ∀ id ∈ t.ids, ∀ p, s.mixer.previous.lookup id = some p → t.k ≤ p.length
  fast : t.fast .noteUnchanged = false ∧ t.fast .write = false
  sync : t.sync .write = false

/-- Every call of the mixer in a step hands it feedback that it can take. -/
def StepHonoured [F64] (cfg : WrapSettings) (s : Wrapper) (t : Step) : Prop :=
  ∀ out, s.propose cfg t = some out →
    ∀ m ids accepted, Event.mix m ids accepted ∈ out.events → Honoured m ids accepted

/-- The synchronous body, with its exception caught. -/
lemma syncOrNative_honoured [F64] {cfg : WrapSettings} {s : Wrapper} {t : Step} {out : StepOut}
    (hs : s.WidthsFit) (hsound : t.sync .write = false) (h : s.syncOrNative cfg t = some out) :
    out.state.WidthsFit ∧
      ∀ m ids accepted, Event.mix m ids accepted ∈ out.events → Honoured m ids accepted := by
  obtain ⟨body, hbody, rfl⟩ := Option.map_eq_some_iff.mp h
  have hfit := (syncBody_tables hs.mixer hbody).widthsFit hs (by simp [hsound]) False.elim
  split <;> exact hfit

/-- One sound step keeps the invariant, and its feedback is honoured. -/
theorem propose_honoured [F64] {cfg : WrapSettings} {s : Wrapper} {t : Step} {out : StepOut}
    (hs : s.WidthsFit) (hsound : s.Sound cfg t) (h : s.propose cfg t = some out) :
    out.state.WidthsFit ∧
      ∀ m ids accepted, Event.mix m ids accepted ∈ out.events → Honoured m ids accepted := by
  unfold propose at h
  split at h
  case isFalse => exact syncOrNative_honoured hs hsound.sync h
  case isTrue htries =>
    split at h
    case h_1 => cases h
    case h_2 body hbody =>
      obtain ⟨hfit, hev⟩ := (fastBody_tables hs.mixer htries hbody).widthsFit hs
        (by simp [hsound.fast]) hsound.skips
      split at h
      case h_1 =>
        cases h
        exact ⟨hfit, hev⟩
      case h_2 =>
        obtain ⟨o, ho, rfl⟩ := Option.map_eq_some_iff.mp h
        have hfall : ({ body.state with fallback := true } : Wrapper).WidthsFit :=
          ⟨hfit.mixer, hfit.widths⟩
        obtain ⟨hfit', hev'⟩ := syncOrNative_honoured hfall hsound.sync ho
        refine ⟨hfit', fun m ids accepted hmem => ?_⟩
        rcases List.mem_append.mp hmem with hmem | hmem
        · exact hev m ids accepted hmem
        · exact hev' m ids accepted hmem

/-- Along a run of sound steps the mixer never rejects the feedback that the wrapper hands it. -/
theorem feedback_admissible [F64] (cfg : WrapSettings) {m : HybridMixer}
    (hm : HybridMixer.Reachable m) (hnew : m.previous = ∅) (k : ℕ) {ts : List Step}
    (h : Along (step cfg) (Sound cfg) (start m k) ts) :
    Along (step cfg) (StepHonoured cfg) (start m k) ts := by
  have hstart : (start m k).WidthsFit :=
    ⟨hm.inv, fun id p v hp => by simp [start, hnew] at hp⟩
  refine Along.imp (fun s t hs hsound => ⟨fun out hout => ?_, fun s' hs' => ?_⟩) hstart h
  · exact (propose_honoured hs hsound hout).2
  · obtain ⟨out, hout, rfl⟩ := Option.map_eq_some_iff.mp hs'
    exact (propose_honoured hs hsound hout).1

/-! ## A skipped mix after a short proposal -/

/-- A step on CUDA whose batch is one request. On entry the copies of the last step have landed, with
the length `count` and the window `tail`; those of this step land before the mix reads them. -/
def oneRow (id : ReqId) (tokens : List Token) (total : ℕ) (native : List Token)
    (sampled rejected : ℤ) (count : ℕ) (tail : List Token)
    (hn : native.length = 2 := by rfl) (ht : tokens.length = 10 := by rfl) : Step where
  k := 2
  ncols := 10
  batch := [{ id, tokens, total, native, sampled, rejected }]
  order := HashOrder.stored ReqId
  onEntry := ⟨fun _ c => tail[c]?.getD 0, fun _ => count, fun _ => 0, fun _ => 0⟩
  inFlight := ⟨fun _ _ => 0, fun _ => total, fun _ => sampled, fun _ => rejected⟩
  hook := false
  heard := []
  fast := fun _ => false
  sync := fun _ => false
  native_length := by simp [hn]
  tokens_length := by simp [ht]

/-- Rank 0 of two ranks, with a heartbeat on every second step. -/
def ownerOfTwo : WrapSettings := { rank := 0, worldSize := 2, heartbeat := 2, indexN := 1 }

/-- A mixer for drafts of two tokens and an index of single tokens. -/
def emptyMixer : HybridMixer := HybridMixer.empty (Config.ofN 1 Nat.one_pos) {} 2 100 Nat.two_pos

lemma emptyMixer_reachable [F64] : HybridMixer.Reachable emptyMixer :=
  HybridMixer.Reachable.of_run (by decide)
    (show run HybridMixer.op emptyMixer [] = some emptyMixer from rfl)

lemma two_drafts : ([9, 9] : List Token).length = 2 := rfl

/-- A request comes and leaves, and a second one decodes without a hit in the cache. -/
def warmUp : List Step :=
  [oneRow "b" [1, 2, 3, 0, 0, 0, 0, 0, 0, 0] 3 [9, 9] 1 0 0 [] two_drafts,
    oneRow "a" [4, 5, 0, 0, 0, 0, 0, 0, 0, 0] 2 [9, 9] 1 0 3 [] two_drafts,
    oneRow "a" [4, 5, 7, 0, 0, 0, 0, 0, 0, 0] 3 [9, 9] 1 2 2 [] two_drafts,
    oneRow "a" [4, 5, 7, 8, 0, 0, 0, 0, 0, 0] 4 [9, 9] 1 2 3 [7] two_drafts,
    oneRow "a" [4, 5, 7, 8, 2, 0, 0, 0, 0, 0] 5 [9, 9] 1 2 4 [8] two_drafts]

/-- The run warms up with skipped mixes after full proposals. -/
theorem feedback_admissible_warmUp :
    Along (step ownerOfTwo) (StepHonoured ownerOfTwo) (start emptyMixer 2) warmUp := by
  refine feedback_admissible ownerOfTwo emptyMixer_reachable rfl 2 ?_
  have hcheck : Along (step ownerOfTwo) (fun s t =>
      (∀ id ∈ t.ids, (s.mixer.previous.lookup id).all fun p => t.k ≤ p.length) ∧
        t.fast .noteUnchanged = false ∧ t.fast .write = false ∧ t.sync .write = false)
      (start emptyMixer 2) warmUp := by with_unfolding_all decide
  refine Along.mono (fun s t ⟨hlen, hnote, hwrite, hsync⟩ =>
    ⟨fun _ id hid p hp => ?_, ⟨hnote, hwrite⟩, hsync⟩) hcheck
  have hall := hlen id hid
  rw [hp] at hall
  simpa using hall

/-- The mix that publishes the one token `[3]`, and a step that skips the mix. -/
def shortProposal : List Step :=
  [oneRow "a" [4, 5, 7, 8, 2, 6, 0, 0, 0, 0] 6 [9, 9] 1 2 5 [2],
    oneRow "a" [4, 5, 7, 8, 2, 6, 6, 0, 0, 0] 7 [7, 7] 1 2 6 [6]]

/-- The verifier has accepted both tokens of the native draft that the last step published. -/
def fullAcceptance : Step := oneRow "a" [4, 5, 7, 8, 2, 6, 6, 7, 7, 8] 10 [9, 9] 3 0 7 [6]

/-- The step after a skipped mix hands the mixer an accepted length of 2 for a last proposal of length
1. The mixer raises, the fast body is given up for good, the synchronous body raises in the same way,
and the step ends without a broadcast. -/
theorem skipped_mix_rejected :
    (∀ t ∈ warmUp ++ shortProposal ++ [fullAcceptance], ∀ r ∈ t.batch,
      1 ≤ r.sampled ∧ r.sampled + r.rejected - 1 ≤ t.k) ∧
    ∃ s out, run (step ownerOfTwo) (start emptyMixer 2) (warmUp ++ shortProposal) = some s ∧
      s.propose ownerOfTwo fullAcceptance = some out ∧ ¬ s.StepHonoured ownerOfTwo fullAcceptance ∧
      s.fallback = false ∧ out.state.fallback = true ∧
      ∀ e ∈ out.events, ∃ m p, e = .mix m ["a"] [2] ∧ m.previous.lookup "a" = some p ∧ p.length = 1 := by
  have hview : ((run (step ownerOfTwo) (start emptyMixer 2) (warmUp ++ shortProposal)).bind fun s =>
      (s.propose ownerOfTwo fullAcceptance).map fun out =>
        (s.fallback, out.state.fallback, out.events.map fun e => match e with
          | .mix m ids accepted => (m.previous.lookup "a").any fun p : Previous =>
            decide (ids = ["a"] ∧ accepted = [2] ∧ p.length = 1)
          | .broadcast _ => false)) = some (false, true, [true, true]) := by with_unfolding_all decide
  obtain ⟨s, hs, hout⟩ := Option.bind_eq_some_iff.mp hview
  obtain ⟨out, hout, heq⟩ := Option.map_eq_some_iff.mp hout
  simp only [Prod.mk.injEq] at heq
  obtain ⟨hfresh, hfall, hevents⟩ := heq
  have hmix (e : Event) (he : e ∈ out.events) :
      ∃ m p, e = .mix m ["a"] [2] ∧ m.previous.lookup "a" = some p ∧ p.length = 1 := by
    have hmem := List.mem_map_of_mem (f := fun e : Event => match e with
      | .mix m ids accepted => (m.previous.lookup "a").any fun p : Previous =>
        decide (ids = ["a"] ∧ accepted = [2] ∧ p.length = 1)
      | .broadcast _ => false) he
    rw [hevents] at hmem
    cases e with
    | mix m ids accepted =>
      have htrue := (List.mem_pair.mp hmem).elim id id
      obtain ⟨p, hp, hcheck⟩ := (Option.any_eq_true _ _).mp htrue
      obtain ⟨rfl, rfl, hlen⟩ := of_decide_eq_true hcheck
      exact ⟨m, p, rfl, hp, hlen⟩
    | broadcast draft => simp at hmem
  refine ⟨by decide, s, out, hs, hout, fun hgood => ?_, hfresh, hfall, hmix⟩
  have hne : out.events ≠ [] := by
    intro hnil
    rw [hnil] at hevents
    cases hevents
  obtain ⟨e, he⟩ := List.exists_mem_of_ne_nil _ hne
  obtain ⟨m, p, rfl, hp, hlen⟩ := hmix e he
  rcases (hgood out hout m ["a"] [2] he).1 "a" 2 (by simp) p hp with heq | hle <;> omega

end Wrapper
end SuffixHybrid
