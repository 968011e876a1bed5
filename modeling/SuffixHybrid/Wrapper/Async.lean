import SuffixHybrid.Wrapper.Device
import SuffixHybrid.Wrapper.Feedback

/-!
# Steps of the device

A step of the device is frozen, or it absorbs and enqueues, and then skips the mix or mixes
(`fastBody_exit`). Only the absorb and the enqueue touch the mirror; whatever follows them keeps it
(`kept`), also a fallback to the synchronous body.
-/

namespace SuffixHybrid
open Lib

/-- The owner runs the fast body to its end. -/
lemma WrapSettings.OnCuda.owner_runs {cfg : WrapSettings} (hc : cfg.OnCuda) :
    ¬ (cfg.rank ≠ 0 ∧ (!cfg.replay) = true) := by
  rintro ⟨hrank, hreplay⟩
  rcases hc.owner with h0 | hr
  · exact hrank h0
  · simp [hr] at hreplay

lemma WrapSettings.OnCuda.owner_true {cfg : WrapSettings} (hc : cfg.OnCuda) :
    (cfg.rank = 0 || cfg.replay) = true := by
  rcases hc.owner with h0 | hr
  · simp [h0]
  · simp [hr]

namespace Wrapper

/-! ## What the mix keeps -/

/-- The mirror, the width of the windows and the requests whose copies are under way. -/
def kept (s : Wrapper) : Map ReqId (List Token) × ℕ × Option (List ReqId) := (s.mirror, s.w, s.pending)

lemma kept_eq {s s' : Wrapper} (h : s'.kept = s.kept) :
    s'.mirror = s.mirror ∧ s'.w = s.w ∧ s'.pending = s.pending := by
  simpa [kept] using h

lemma kept_resolveWins (cfg : WrapSettings) (s : Wrapper) (t : Step) :
    (s.resolveWins cfg t).kept = s.kept := by
  have h := congrArg kept (ungated_resolveWins cfg s t)
  exact h

lemma kept_skip (cfg : WrapSettings) (s : Wrapper) (t : Step) : (s.skip cfg t).state.kept = s.kept := by
  unfold skip
  split <;> rfl

/-- A skipped mix hands nothing over. -/
lemma skip_no_mix (cfg : WrapSettings) (s : Wrapper) (t : Step) {m : HybridMixer} {ids : List ReqId}
    {accepted : List ℤ} : .mix m ids accepted ∉ (s.skip cfg t).events := by
  unfold skip
  split
  case isTrue => simp
  case isFalse =>
    intro hmem
    obtain ⟨draft, hdraft⟩ := mem_nativeOut hmem
    cases hdraft

/-- The state without what a publication records. -/
def settled (s : Wrapper) : Wrapper := { s.ungated with previousWidths := ∅, mixes := 0 }

/-- The publication of a mix changes nothing else. -/
lemma settled_publishChecked (cfg : WrapSettings) (s : Wrapper) (t : Step) (mixed : Draft) :
    (s.publishChecked cfg t mixed).state.settled = s.settled := by
  have hrows : (s.gateRows cfg t mixed).settled = s.settled := by
    rw [settled, ungated_gateRows]
    rfl
  unfold publishChecked
  split
  case h_1 => rfl
  case h_2 =>
    unfold publish
    dsimp only
    split
    case isTrue => split <;> exact hrows
    case isFalse =>
      split
      case isTrue => exact hrows
      case isFalse => split <;> exact hrows

/-- The synchronous body changes the mixer, the recorded widths and the mix counter only. -/
lemma syncBody_frame [F64] {cfg : WrapSettings} {s : Wrapper} {t : Step} {out : BodyOut}
    (h : s.syncBody cfg t = some out) : ∃ mixer previousWidths mixes,
      out.state = { s with mixer, previousWidths, mixes } := by
  have hsame : ∃ mixer previousWidths mixes, s = { s with mixer, previousWidths, mixes } :=
    ⟨s.mixer, s.previousWidths, s.mixes, rfl⟩
  unfold syncBody at h
  split at h
  case isTrue => cases h; exact hsame
  split at h
  case isTrue => cases h; exact hsame
  split at h
  case isTrue => cases h; exact hsame
  split at h
  case isTrue => cases h; exact hsame
  unfold syncMixAndPublish at h
  dsimp only at h
  split at h
  case h_1 => cases h
  case h_2 =>
    cases h
    exact ⟨_, _, _, rfl⟩
  case h_3 drafts m hmix =>
    cases h
    unfold syncPublish
    split
    · exact ⟨_, _, _, rfl⟩
    · split
      · exact ⟨_, _, _, rfl⟩
      · dsimp only
        split <;> exact ⟨_, _, _, rfl⟩

lemma syncOrNative_frame [F64] {cfg : WrapSettings} {s : Wrapper} {t : Step} {out : StepOut}
    (h : s.syncOrNative cfg t = some out) :
    out.state.kept = s.kept ∧ out.state.fallback = s.fallback := by
  obtain ⟨body, hbody, rfl⟩ := Option.map_eq_some_iff.mp h
  obtain ⟨mixer, previousWidths, mixes, hstate⟩ := syncBody_frame hbody
  have hframe : body.state.kept = s.kept ∧ body.state.fallback = s.fallback := by
    rw [hstate]
    exact ⟨rfl, rfl⟩
  split <;> exact hframe

/-- The publication of a mix only broadcasts, and keeps the mirror. -/
lemma publishChecked_spec (cfg : WrapSettings) (s : Wrapper) (t : Step) (mixed : Draft) :
    (s.publishChecked cfg t mixed).state.kept = s.kept ∧
      (s.publishChecked cfg t mixed).state.mixer = s.mixer ∧
      ∀ e ∈ (s.publishChecked cfg t mixed).events, ∃ draft, e = .broadcast draft := by
  have hkept := congrArg kept (settled_publishChecked cfg s t mixed)
  refine ⟨hkept, ?_⟩
  unfold publishChecked
  split
  case h_1 => exact ⟨rfl, by simp⟩
  case h_2 =>
    obtain ⟨hm, ⟨_, hev⟩ | ⟨_, _, hev⟩⟩ := publish_record cfg s t mixed
    · exact ⟨hm, hev⟩
    · exact ⟨hm, by simp [hev]⟩

/-- The mix hands over its feedback once, and keeps the mirror. -/
lemma mixAndPublish_spec [F64] {cfg : WrapSettings} {s : Wrapper} {t : Step} {out : BodyOut}
    (h : s.mixAndPublish cfg t = some out) :
    out.state.kept = s.kept ∧ (∃ r, s.fastMix cfg t = some (r, out.state.mixer)) ∧
      .mix s.mixer t.ids (s.fastFeedback cfg t) ∈ out.events ∧
      ∀ m ids accepted, Event.mix m ids accepted ∈ out.events →
        m = s.mixer ∧ ids = t.ids ∧ accepted = s.fastFeedback cfg t := by
  have hwins := kept_resolveWins cfg s t
  unfold mixAndPublish at h
  dsimp only at h
  split at h
  case h_1 => cases h
  case h_2 e m hmix =>
    cases h
    refine ⟨hwins, ⟨_, hmix⟩, by simp, fun m' ids accepted hmem => ?_⟩
    cases List.mem_singleton.mp hmem
    exact ⟨rfl, rfl, rfl⟩
  case h_3 drafts m hmix =>
    cases h
    obtain ⟨hkept, hmixer, hev⟩ := publishChecked_spec cfg { s.resolveWins cfg t with mixer := m } t drafts
    refine ⟨hkept.trans hwins, ⟨_, by rw [hmix, hmixer]⟩, List.mem_cons_self,
      fun m' ids accepted hmem => ?_⟩
    rcases List.mem_cons.mp hmem with heq | hmem
    · cases heq
      exact ⟨rfl, rfl, rfl⟩
    · obtain ⟨draft, hdraft⟩ := hev _ hmem
      cases hdraft

/-- Behind a mix that has raised there is no draft. -/
lemma mixAndPublish_ok [F64] {cfg : WrapSettings} {s : Wrapper} {t : Step} {out : BodyOut}
    (h : s.mixAndPublish cfg t = some out) {draft : Draft} (hdraft : out.draft = .ok draft) :
    ∃ drafts, s.fastMix cfg t = some (.ok drafts, out.state.mixer) := by
  unfold mixAndPublish at h
  dsimp only at h
  split at h
  case h_1 => cases h
  case h_2 =>
    cases h
    cases hdraft
  case h_3 drafts m hmix =>
    cases h
    exact ⟨drafts, by
      rw [hmix, (publishChecked_spec cfg { s.resolveWins cfg t with mixer := m } t drafts).2.1]⟩

/-- The mix ends. -/
lemma mixAndPublish_total [F64] {cfg : WrapSettings} {s : Wrapper} {t : Step} (hinv : s.mixer.Inv) :
    ∃ out, s.mixAndPublish cfg t = some out := by
  obtain ⟨⟨r, m⟩, hmix, _⟩ := (HybridMixer.mix_atomic.2 s.mixer hinv t.order t.ids t.native
    (some (s.fastFeedback cfg t))).2 (.i64 (s.mirrorCounts t.ids)) (.i64 true (s.mirrorGrid t.ids))
  have hfast : s.fastMix cfg t = some (r, m) := hmix
  unfold mixAndPublish
  rw [hfast]
  cases r with
  | error e => exact ⟨_, rfl⟩
  | ok drafts => exact ⟨_, rfl⟩

/-! ## How a step ends -/

/-- How the fast body of the owner ends in the asynchronous mode if no local work fails: frozen, with a
skipped mix, or with a mix. -/
inductive AsyncExit [F64] (cfg : WrapSettings) (s : Wrapper) (t : Step) (out : BodyOut) : Prop
  | frozen : s.freezes cfg t = true → out = { s with steps := s.steps + 1 }.skip cfg t →
      AsyncExit cfg s t out
  | skipped : s.freezes cfg t = false → (s.prepare cfg t).probe cfg t = some false →
      out = (s.prepare cfg t).skip cfg t → AsyncExit cfg s t out
  | mixed : s.freezes cfg t = false → (s.prepare cfg t).probe cfg t = some true →
      ((s.prepare cfg t).drain cfg t).mixAndPublish cfg t = some out → AsyncExit cfg s t out

/-- The fast body of the owner has no other ends, unless local work fails. -/
lemma fastBody_cases [F64] {cfg : WrapSettings} (howner : cfg.rank = 0 ∨ cfg.replay = true) {s : Wrapper}
    {t : Step} {out : BodyOut} (h : s.fastBody cfg t = some out) :
    AsyncExit cfg s t out ∨ ∃ site, t.fast site = true ∧ out.draft = .error (.fault site) := by
  have howner : ¬ (cfg.rank ≠ 0 ∧ (!cfg.replay) = true) := by
    rintro ⟨hrank, hreplay⟩
    rcases howner with h0 | hr
    · exact hrank h0
    · simp [hr] at hreplay
  unfold fastBody at h
  rw [if_neg howner] at h
  split at h
  case isTrue hfreeze =>
    cases h
    exact Or.inl (.frozen hfreeze rfl)
  case isFalse hfreeze =>
    rw [Bool.not_eq_true] at hfreeze
    unfold fullPath at h
    split at h
    case isTrue hindex =>
      cases h
      exact Or.inr ⟨_, hindex, rfl⟩
    split at h
    case isTrue habsorb =>
      cases h
      exact Or.inr ⟨_, habsorb, rfl⟩
    split at h
    case isTrue henqueue =>
      cases h
      exact Or.inr ⟨_, henqueue, rfl⟩
    dsimp only at h
    split at h
    case h_1 => cases h
    case h_2 hprobe =>
      cases h
      exact Or.inl (.skipped hfreeze hprobe rfl)
    case h_3 hprobe =>
      split at h
      case isTrue hread =>
        cases h
        exact Or.inr ⟨_, hread, rfl⟩
      case isFalse => exact Or.inl (.mixed hfreeze hprobe h)

/-- The fast body of a device has no other ends. -/
lemma fastBody_exit [F64] {cfg : WrapSettings} (hc : cfg.OnCuda) {s : Wrapper} {t : Step}
    (hfast : ∀ site, t.fast site = false) {out : BodyOut} (h : s.fastBody cfg t = some out) :
    AsyncExit cfg s t out := by
  rcases fastBody_cases hc.owner h with hexit | ⟨site, hsite, _⟩
  · exact hexit
  · rw [hfast] at hsite
    cases hsite

/-- A step that is not frozen and that the probe lets through mixes. -/
lemma fastBody_mixes [F64] {cfg : WrapSettings} (hc : cfg.OnCuda) {s : Wrapper} {t : Step}
    (hfast : ∀ site, t.fast site = false) (hinv : s.mixer.Inv) (hf : s.freezes cfg t = false)
    (hprobe : (s.prepare cfg t).probe cfg t = some true) : ∃ out, s.fastBody cfg t = some out ∧
      ((s.prepare cfg t).drain cfg t).mixAndPublish cfg t = some out := by
  have hprep : ((s.prepare cfg t).drain cfg t).mixer.Inv := by
    rw [(shared_eq ((shared_drain cfg _ t).trans (shared_prepare cfg s t))).1]
    exact hinv
  obtain ⟨out, hout⟩ : ∃ out, ((s.prepare cfg t).drain cfg t).mixAndPublish cfg t = some out :=
    mixAndPublish_total hprep
  have howner : ¬ (cfg.rank ≠ 0 ∧ (!cfg.replay) = true) := hc.owner_runs
  refine ⟨out, ?_, hout⟩
  unfold fastBody fullPath
  simp only [if_neg howner, hf, hfast, Bool.false_eq_true, if_false, hprobe]
  exact hout

/-- The legacy split reads the mirror as it stands. -/
lemma drain_legacy {cfg : WrapSettings} (hlegacy : cfg.splitDiverge = false) (s : Wrapper) (t : Step) :
    s.drain cfg t = s := by
  rw [drain, if_neg (by simp [hlegacy])]

/-- A body keeps the mirror that the absorbs and the enqueue have left. -/
lemma fastBody_kept [F64] {cfg : WrapSettings} (hc : cfg.OnCuda) {s : Wrapper} {t : Step}
    (hfast : ∀ site, t.fast site = false) {out : BodyOut} (h : s.fastBody cfg t = some out) :
    out.state.kept = if s.freezes cfg t then s.kept else ((s.prepare cfg t).drain cfg t).kept := by
  cases fastBody_exit hc hfast h with
  | frozen hf hout =>
    rw [if_pos hf, hout, kept_skip]
    rfl
  | skipped hf hprobe hout =>
    have hlegacy : cfg.splitDiverge = false := by
      cases hdiverge : cfg.splitDiverge with
      | false => rfl
      | true => simp [probe, hdiverge] at hprobe
    rw [if_neg (by simp [hf]), hout, kept_skip, drain_legacy hlegacy]
  | mixed hf _ hmix =>
    rw [if_neg (by simp [hf])]
    exact (mixAndPublish_spec hmix).1

/-- A step keeps the invariant of the mixer. -/
lemma propose_inv [F64] {cfg : WrapSettings} {s : Wrapper} {t : Step} {out : StepOut}
    (hinv : s.mixer.Inv) (h : s.propose cfg t = some out) : out.state.mixer.Inv := by
  have hsync (s : Wrapper) (hs : s.mixer.Inv) (out : StepOut) (h : s.syncOrNative cfg t = some out) :
      out.state.mixer.Inv := by
    obtain ⟨body, hbody, rfl⟩ := Option.map_eq_some_iff.mp h
    have hbody' := (syncBody_tables hs hbody).inv hs
    split <;> exact hbody'
  unfold propose at h
  split at h
  case isFalse => exact hsync s hinv out h
  case isTrue htries =>
    split at h
    case h_1 => cases h
    case h_2 body hbody =>
      have hbody' := (fastBody_tables hinv htries hbody).inv hinv
      split at h
      case h_1 =>
        cases h
        exact hbody'
      case h_2 =>
        obtain ⟨o, ho, rfl⟩ := Option.map_eq_some_iff.mp h
        exact hsync { body.state with fallback := true } hbody' o ho

end Wrapper

namespace Device

/-- A step keeps the mirror that its absorbs and its enqueue have left. -/
lemma propose_kept [F64] {cfg : WrapSettings} (hc : cfg.OnCuda) {d : Device} {x : Tick} {out : StepOut}
    (h : d.wrapper.propose cfg (d.step x) = some out) :
    out.state.kept = if d.stages cfg x then (d.drained cfg x).kept else d.wrapper.kept := by
  rw [stages, hc.owner_true, Bool.true_and]
  unfold Wrapper.propose at h
  split at h
  case isFalse htries =>
    rw [Bool.not_eq_true] at htries
    rw [htries, (Wrapper.syncOrNative_frame h).1]
    rfl
  case isTrue htries =>
    rw [htries, Bool.true_and]
    split at h
    case h_1 => cases h
    case h_2 body hbody =>
      have hkept := Wrapper.fastBody_kept hc (fun _ => rfl) hbody
      have hcases : body.state.kept = if (!d.wrapper.freezes cfg (d.step x)) = true then
          (d.drained cfg x).kept else d.wrapper.kept := by
        rw [hkept]
        cases d.wrapper.freezes cfg (d.step x) <;> rfl
      split at h
      case h_1 =>
        cases h
        exact hcases
      case h_2 =>
        obtain ⟨o, ho, rfl⟩ := Option.map_eq_some_iff.mp h
        exact (Wrapper.syncOrNative_frame ho).1.trans hcases

end Device
end SuffixHybrid
