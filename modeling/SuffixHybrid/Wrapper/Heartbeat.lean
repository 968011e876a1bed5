import SuffixHybrid.Wrapper.Async

/-!
# The heartbeat of the wrapper

The frozen path and the probe skip mixes, and with them what the mixer does for requests that have left
the batch. Every step of the owner on the fast path increments the step counter once, on whichever path it
ends (`Clean.steps`), and a step that takes the counter to a multiple of the heartbeat mixes
(`Clean.mixes`). So no more than a heartbeat of steps passes between two mixes (`heartbeat_bound`).
-/

namespace SuffixHybrid
open Lib

namespace Wrapper
variable {cfg : WrapSettings} {s : Wrapper} {t : Step}

/-! ## The counter -/

lemma steps_absorbPending (s : Wrapper) (b : Staging) : (s.absorbPending b).steps = s.steps := by
  unfold absorbPending
  split <;> rfl

lemma steps_prepare (cfg : WrapSettings) (s : Wrapper) (t : Step) :
    (s.prepare cfg t).steps = s.steps + 1 := by
  have henqueue : ((s.absorbPending t.onEntry).enqueue t).steps = s.steps :=
    (foldl_view Wrapper.steps (f := forget) (fun _ _ => rfl) _ _).trans (steps_absorbPending s t.onEntry)
  unfold prepare
  dsimp only
  split
  case isTrue => rw [henqueue]
  case isFalse => rw [steps_absorbPending, henqueue]

lemma steps_drain (cfg : WrapSettings) (s : Wrapper) (t : Step) : (s.drain cfg t).steps = s.steps := by
  unfold drain
  split
  case isTrue => exact steps_absorbPending _ _
  case isFalse => rfl

lemma steps_resolveWins (cfg : WrapSettings) (s : Wrapper) (t : Step) :
    (s.resolveWins cfg t).steps = s.steps := by
  have h := congrArg Wrapper.steps (ungated_resolveWins cfg s t)
  exact h

lemma steps_skip (cfg : WrapSettings) (s : Wrapper) (t : Step) : (s.skip cfg t).state.steps = s.steps := by
  unfold skip
  split <;> rfl

lemma steps_publishChecked (cfg : WrapSettings) (s : Wrapper) (t : Step) (mixed : Draft) :
    (s.publishChecked cfg t mixed).state.steps = s.steps := by
  have h := congrArg Wrapper.steps (settled_publishChecked cfg s t mixed)
  exact h

lemma steps_mixAndPublish [F64] {out : BodyOut} (h : s.mixAndPublish cfg t = some out) :
    out.state.steps = s.steps := by
  unfold mixAndPublish at h
  dsimp only at h
  split at h
  case h_1 => cases h
  case h_2 =>
    cases h
    exact steps_resolveWins cfg s t
  case h_3 =>
    cases h
    exact (steps_publishChecked _ _ _ _).trans (steps_resolveWins cfg s t)

/-- The owner's fast body increments the counter once, on each of its ways. -/
lemma AsyncExit.steps [F64] {out : BodyOut} (h : AsyncExit cfg s t out) :
    out.state.steps = s.steps + 1 := by
  cases h with
  | frozen _ hout => rw [hout, steps_skip]
  | skipped _ _ hout => rw [hout, steps_skip, steps_prepare]
  | mixed _ _ hmix => rw [steps_mixAndPublish hmix, steps_drain, steps_prepare]

/-! ## Heartbeat steps -/

/-- The gates stay open where the counter comes to a multiple of the heartbeat. -/
lemma AsyncExit.mixed_of_due [F64] {out : BodyOut} (h : AsyncExit cfg s t out)
    (hdue : cfg.hbDue (s.steps + 1) = true) :
    ((s.prepare cfg t).drain cfg t).mixAndPublish cfg t = some out := by
  cases h with
  | frozen hf _ =>
    rw [freezes, hdue, Bool.not_true, Bool.and_false] at hf
    cases hf
  | skipped _ hprobe _ =>
    have hopen : (s.prepare cfg t).probe cfg t = some true := by
      unfold probe mirrorProbe
      rw [steps_prepare, hdue]
      simp
    rw [hopen] at hprobe
    cases hprobe
  | mixed _ _ hmix => exact hmix

/-- The step hands the requests of its batch to the mixer, which from then on tracks no other. -/
def Mixes [F64] (cfg : WrapSettings) (s : Wrapper) (t : Step) : Prop :=
  ∃ out accepted, s.propose cfg t = some out ∧ .mix s.mixer t.ids accepted ∈ out.events ∧
    ∀ id ∉ t.ids, out.state.mixer.previous.lookup id = none

/-- The step runs the fast body and nothing raises in it. -/
structure Clean [F64] (cfg : WrapSettings) (s : Wrapper) (t : Step) : Prop where
  hook : t.hook = false
  ends : ∃ out, s.propose cfg t = some out ∧ out.state.fallback = false

/-- Such a step is what its fast body does. -/
lemma Clean.fastBody [F64] (h : s.Clean cfg t) : ∃ body draft, s.fastBody cfg t = some body ∧
    body.draft = .ok draft ∧ s.propose cfg t = some ⟨draft, body.state, body.events⟩ := by
  obtain ⟨out, hout, hfall⟩ := h.ends
  have hkeep := hout
  unfold propose at hout
  split at hout
  case isFalse htries =>
    rw [(syncOrNative_frame hout).2] at hfall
    simp [triesFast, hfall, h.hook] at htries
  case isTrue =>
    split at hout
    case h_1 => cases hout
    case h_2 body hbody =>
      split at hout
      case h_1 draft hdraft =>
        cases hout
        exact ⟨body, draft, hbody, hdraft, hkeep⟩
      case h_2 =>
        -- the synchronous body keeps the mark of the exception
        obtain ⟨o, ho, rfl⟩ := Option.map_eq_some_iff.mp hout
        have hmark : o.state.fallback = true := (syncOrNative_frame ho).2
        rw [show o.state.fallback = false from hfall] at hmark
        cases hmark

/-- The way in which such a step of the owner ends. -/
lemma Clean.exit [F64] (h : s.Clean cfg t) (howner : cfg.rank = 0 ∨ cfg.replay = true) :
    ∃ body draft, AsyncExit cfg s t body ∧ body.draft = .ok draft ∧
      s.propose cfg t = some ⟨draft, body.state, body.events⟩ := by
  obtain ⟨body, draft, hbody, hdraft, hpropose⟩ := h.fastBody
  rcases fastBody_cases howner hbody with hexit | ⟨site, _, hfault⟩
  · exact ⟨body, draft, hexit, hdraft, hpropose⟩
  · rw [hdraft] at hfault
    cases hfault

lemma Clean.steps [F64] (h : s.Clean cfg t) (howner : cfg.rank = 0 ∨ cfg.replay = true) :
    ∃ s', s.step cfg t = some s' ∧ s'.steps = s.steps + 1 := by
  obtain ⟨body, draft, hexit, _, hpropose⟩ := h.exit howner
  exact ⟨body.state, by rw [step, hpropose]; rfl, hexit.steps⟩

lemma Clean.mixes [F64] (h : s.Clean cfg t) (howner : cfg.rank = 0 ∨ cfg.replay = true)
    (hinv : s.mixer.Inv) (hdue : cfg.hbDue (s.steps + 1) = true) : s.Mixes cfg t := by
  obtain ⟨body, draft, hexit, hdraft, hpropose⟩ := h.exit howner
  have hmix := hexit.mixed_of_due hdue
  have hshared : ((s.prepare cfg t).drain cfg t).mixer = s.mixer :=
    (shared_eq ((shared_drain cfg _ t).trans (shared_prepare cfg s t))).1
  obtain ⟨_, _, hevent, _⟩ := mixAndPublish_spec hmix
  obtain ⟨drafts, hdrafts⟩ := mixAndPublish_ok hmix hdraft
  have hmixed : Mixed body.state.mixer t drafts := by
    refine Mixed.of_mixNumpy ?_ hdrafts
    rw [hshared]
    exact hinv
  rw [hshared] at hevent
  refine ⟨_, _, hpropose, hevent, fun id hid => ?_⟩
  cases hp : body.state.mixer.previous.lookup id with
  | none => rfl
  | some p =>
    obtain ⟨d, hd, _⟩ := hmixed.tracked id p hp
    exact absurd (List.of_mem_zip hd).1 hid

/-! ## Runs -/

lemma hbDue_of_dvd (hhb : 0 < cfg.heartbeat) {n : ℕ} (h : cfg.heartbeat.toNat ∣ n) :
    cfg.hbDue n = true := by
  have hdvd : cfg.heartbeat ∣ n := by
    rw [← Int.toNat_of_nonneg hhb.le]
    exact Int.natCast_dvd_natCast.mpr h
  simp [WrapSettings.hbDue, hhb, Int.emod_eq_zero_of_dvd hdvd]

/-- Each step of such a run increments the counter and mixes where that is a multiple of the heartbeat. -/
lemma along_counted [F64] (howner : cfg.rank = 0 ∨ cfg.replay = true) (hhb : 0 < cfg.heartbeat)
    (hinv : s.mixer.Inv) {ts : List Step} (h : Along (step cfg) (Clean cfg) s ts) :
    Along (step cfg) (fun s t => (∃ s', s.step cfg t = some s' ∧ s'.steps = s.steps + 1) ∧
      (cfg.heartbeat.toNat ∣ s.steps + 1 → s.Mixes cfg t)) s ts := by
  have hkeep (s s' : Wrapper) (t : Step) (hs : s.mixer.Inv) (h : s.step cfg t = some s') :
      s'.mixer.Inv := by
    obtain ⟨out, hout, rfl⟩ := Option.map_eq_some_iff.mp h
    exact propose_inv hs hout
  exact Along.imp (fun (s : Wrapper) t (hs : s.mixer.Inv) hclean => ⟨⟨hclean.steps howner,
    fun hdvd => hclean.mixes howner hs (hbDue_of_dvd hhb hdvd)⟩, fun s' => hkeep s s' t hs⟩) hinv h

/-- In a run of the owner on the fast path in which nothing raises, the counter is the number of steps, and
every step that takes it to a multiple of the heartbeat mixes. Among as many consecutive steps as the
heartbeat one mixes; a request that has left the batch before these steps, and stays away, is not among
those that it hands over, and the mixer drops it. -/
theorem heartbeat_bound [F64] {cfg : WrapSettings} (howner : cfg.rank = 0 ∨ cfg.replay = true)
    (hhb : 0 < cfg.heartbeat) {m : HybridMixer} (hm : HybridMixer.Reachable m) (k : ℕ) {ts : List Step}
    (h : Along (step cfg) (Clean cfg) (start m k) ts) :
    (∀ before after, ts = before ++ after →
      ∃ s, run (step cfg) (start m k) before = some s ∧ s.steps = before.length) ∧
    Along (step cfg) (fun s t => cfg.heartbeat ∣ ((s.steps + 1 : ℕ) : ℤ) → s.Mixes cfg t) (start m k) ts ∧
    ∀ past window rest, ts = past ++ (window ++ rest) → (window.length : ℤ) = cfg.heartbeat →
      ∃ before t after s, window = before ++ t :: after ∧
        run (step cfg) (start m k) (past ++ before) = some s ∧ s.Mixes cfg t ∧
        ∀ id, (∀ t' ∈ window, id ∉ t'.ids) → id ∉ t.ids ∧
          ∃ out, s.propose cfg t = some out ∧ out.state.mixer.previous.lookup id = none := by
  have hcount := along_counted howner hhb (s := start m k) hm.inv h
  refine ⟨?_, ?_, ?_⟩
  · rintro before after rfl
    obtain ⟨s, hs, hsteps⟩ := Along.count_run ((Along.append.mp hcount).1.mono fun _ _ hst => hst.1)
    exact ⟨s, hs, by rw [hsteps, start, Nat.zero_add]⟩
  · refine hcount.mono fun s t hst hdvd => hst.2 ?_
    rw [← Int.toNat_of_nonneg hhb.le] at hdvd
    exact Int.natCast_dvd_natCast.mp hdvd
  · rintro past window rest rfl hlen
    obtain ⟨hpast, hfuture⟩ := Along.append.mp hcount
    obtain ⟨s0, hs0, _⟩ := Along.count_run (hpast.mono fun _ _ hst => hst.1)
    obtain ⟨before, t, after, s, rfl, _, hs, hmix⟩ := Along.exists_of_period
      (Int.lt_toNat.mpr hhb) (Along.append.mp (hfuture s0 hs0)).1 (by omega)
    refine ⟨before, t, after, s, rfl, by rw [run_append, hs0, Option.bind_some, hs], hmix,
      fun id habsent => ?_⟩
    have hid : id ∉ t.ids := habsent t (by simp)
    obtain ⟨out, _, hout, _, hdrop⟩ := hmix
    exact ⟨hid, out, hout, hdrop id hid⟩

/-- A request leaves after the first step, and is handed over as absent in one of the next two. -/
theorem heartbeat_bound_warmUp : ∃ before t after s,
    (warmUp.drop 1).take 2 = before ++ t :: after ∧
      run (step ownerOfTwo) (start emptyMixer 2) (warmUp.take 1 ++ before) = some s ∧
      s.Mixes ownerOfTwo t ∧ "b" ∉ t.ids := by
  have hhb : 0 < ownerOfTwo.heartbeat := by decide
  have hclean : Along (step ownerOfTwo) (Clean ownerOfTwo) (start emptyMixer 2) warmUp := by
    have hcheck : Along (step ownerOfTwo) (fun s t => t.hook = false ∧
        (s.propose ownerOfTwo t).any (fun out => !out.state.fallback) = true) (start emptyMixer 2)
        warmUp := by with_unfolding_all decide
    refine Along.mono (fun s t ⟨hhook, hends⟩ => ⟨hhook, ?_⟩) hcheck
    obtain ⟨out, hout, hfall⟩ := (Option.any_eq_true _ _).mp hends
    exact ⟨out, hout, by simpa using hfall⟩
  obtain ⟨_, _, hwindow⟩ := heartbeat_bound (Or.inl rfl) hhb
    emptyMixer_reachable 2 hclean
  obtain ⟨before, t, after, s, heq, hrun, hmix, habsent⟩ := hwindow (warmUp.take 1)
    ((warmUp.drop 1).take 2) (warmUp.drop 3) rfl rfl
  exact ⟨before, t, after, s, heq, hrun, hmix, (habsent "b" (by decide)).1⟩

end Wrapper
end SuffixHybrid
