import SuffixHybrid.Sft.Lineage
import SuffixHybrid.Sft.Publish

/-!
# When the error of a run tells the truth

A run serves what it has published and changes nothing before, whatever fails. What it says of the Hub is
true unless a commit is made and `Hub.publish` raises (`published_iff`): the commit is lost with the exception.
-/

namespace SuffixHybrid.Sft
variable {V : Type} {S : Setup V} {c : UploadCalls S} {w : World} {x : Site V}

/-! ## The status -/

/-- A run that is not served leaves the checkpoint of the status alone. -/
lemma train_checkpoint (P : Pod) (c : TrainCalls) (w : World) : (w.train P c).status.checkpoint =
    if c.accepted w ∧ (w.trainStages P c).2 = none then some (some c.runId) else w.status.checkpoint := by
  have hstages : (w.trainStages P c).1.status = (c.started w).status := by
    obtain ⟨w1, _, hstatus, ⟨stage, _, heq⟩ | ⟨_, heq⟩⟩ := trainStages_cases (P := P) c w
    · rw [heq]
      exact hstatus
    · rw [heq, ← hstatus]
      split
      · exact (doAll_silent c.serving_silent w1).1
      · exact (doAll_silent c.serving_silent w1).1
  have hstart : (c.started w).status.checkpoint = w.status.checkpoint := rfl
  rw [World.train]
  split
  next hacc =>
    generalize w.trainStages P c = res at hstages ⊢
    obtain ⟨w1, failed⟩ := res
    cases failed with
    | none => rw [if_pos ⟨hacc, rfl⟩]
    | some stage =>
      have hrecovery := (doAll_silent (c.recovery_silent (P := P) stage) w1).1
      have hkept : (doAll (c.recovery P stage) w1).1.status.checkpoint = w.status.checkpoint := by
        rw [hrecovery, hstages, hstart]
      rw [if_neg fun h => Option.some_ne_none _ h.2]
      dsimp only
      split
      · exact hkept
      · exact hkept
  next hacc =>
    rw [if_neg fun h => hacc h.1]

/-! ## The files -/

/-- The failure path leaves the files alone. -/
lemma after_files (h : c.accepted w) : (c.after w x).hub = (c.staged w x).hub ∧
    (c.after w x).latest = (c.staged w x).latest ∧ (c.after w x).commit = (c.staged w x).commit := by
  rw [UploadCalls.after, if_pos h, TrainCalls.recoveryTrace]
  split
  · exact ⟨rfl, rfl, rfl⟩
  next stage _ => exact ran_files (c.offline_recovery stage) _ _

/-- And the adapters, of a run that has not got to its last stage. -/
lemma after_live {stage : Stage} (hstage : c.failedIn w = some stage) (hserve : stage ≠ .serve) (h : c.accepted w)
    (r : ℕ) : ((c.after w x).ranks r).live = ((c.staged w x).ranks r).live := by
  rw [UploadCalls.after, if_pos h, TrainCalls.recoveryTrace]
  rw [UploadCalls.failedIn] at hstage
  generalize w.trainStages S.pod c.toTrainCalls = res at hstage ⊢
  obtain ⟨w1, failed⟩ := res
  cases hstage
  exact ran_live (c.quiet_recovery hserve) _ _ r

/-- The site in which the upload begins. -/
def UploadCalls.trainedSite (c : UploadCalls S) (w : World) (x : Site V) : Site V :=
  (ran S.pod c.toTrainCalls c.trainedItems (c.started w)).foldl (S.effect c) { x with commit := false }

lemma trained_files (w : World) (x : Site V) : (c.trainedSite w x).hub = x.hub ∧
    (c.trainedSite w x).latest = x.latest ∧ (c.trainedSite w x).commit = false :=
  ran_files (fun i hi => (c.quiet_trained i hi).offline) _ _

lemma trained_live (w : World) (x : Site V) (r : ℕ) : ((c.trainedSite w x).ranks r).live = (x.ranks r).live :=
  ran_live c.quiet_trained _ _ r

/-- A run whose stages in front of the upload do not return. -/
lemma staged_early (h : ¬ c.uploads w) : c.staged w x = c.trainedSite w x := by
  rw [UploadCalls.staged, (stage_early h).2]
  rfl

/-- A run whose upload raises. -/
lemma staged_upload (h : c.uploads w) (hpublish : ¬ c.publish.ok) :
    c.staged w x = S.publish c (c.trainedSite w x) := by
  rw [UploadCalls.staged, (stage_upload h hpublish).2, List.foldl_append]
  rfl

/-- A run that is uploaded. -/
lemma staged_serve (h : c.uploads w) (hpublish : c.publish.ok) : c.staged w x =
    (ran S.pod c.toTrainCalls c.servingItems (c.publishedWorld S.pod w)).foldl (S.effect c)
      (S.publish c (c.trainedSite w x)) := by
  rw [UploadCalls.staged, (stage_serve h hpublish).2, List.foldl_append]
  rfl

lemma serve_files (h : c.uploads w) (hpublish : c.publish.ok) :
    (c.staged w x).hub = (S.publish c (c.trainedSite w x)).hub ∧
      (c.staged w x).latest = (S.publish c (c.trainedSite w x)).latest ∧
      (c.staged w x).commit = (S.publish c (c.trainedSite w x)).commit := by
  rw [staged_serve h hpublish]
  exact ran_files c.offline_serving _ _

/-- `publish` returns only when the commit has been made. -/
lemma UploadCalls.applied_of_ok (hpublish : c.publish.ok) (hrepo : S.repo) : c.applied := by
  rw [c.publish_ok, hrepo, Bool.and_eq_true] at hpublish
  exact c.applied_of_created (by simpa using hpublish.1)

/-! ## The parts -/

/-- Before the last stage nothing is changed that is served or named. -/
lemma kept (h : c.accepted w → ∃ stage, c.failedIn w = some stage ∧ stage ≠ .serve) :
    (∀ r, ((c.after w x).ranks r).live = (x.ranks r).live) ∧
      (w.train S.pod c.toTrainCalls).status.checkpoint = w.status.checkpoint ∧ (c.after w x).latest = x.latest := by
  by_cases hacc : c.accepted w
  · obtain ⟨stage, hstage, hserve⟩ := h hacc
    have hstaged : (∀ r, ((c.staged w x).ranks r).live = (x.ranks r).live) ∧ (c.staged w x).latest = x.latest := by
      by_cases huploads : c.uploads w
      · by_cases hpublish : c.publish.ok
        · -- the only stage left is the one that serves the run
          have hlast := (stage_serve huploads hpublish).1
          rw [UploadCalls.failedIn, hlast] at hstage
          split at hstage
          · cases hstage
          · exact absurd (Option.some.inj hstage).symm hserve
        · rw [staged_upload huploads hpublish]
          refine ⟨trained_live w x, ?_⟩
          rw [Setup.publish, if_neg hpublish]
          exact (trained_files w x).2.1
      · rw [staged_early huploads]
        exact ⟨trained_live w x, (trained_files w x).2.1⟩
    refine ⟨fun r => (after_live hstage hserve hacc r).trans (hstaged.1 r), ?_,
      (after_files hacc).2.1.trans hstaged.2⟩
    rw [train_checkpoint, if_neg]
    intro hnone
    rw [UploadCalls.failedIn, hnone.2] at hstage
    cases hstage
  · have hafter : c.after w x = x := if_neg hacc
    rw [hafter, train_checkpoint, if_neg fun hnone => hacc hnone.1]
    exact ⟨fun _ => rfl, rfl, rfl⟩

/-- `commit` is called behind the upload only. -/
lemma committed {pre : List (World × Item)} {w' : World} {d : Call}
    (h : pre ++ [(w', .rpc .commit d)] <+: c.trace S.pod w) :
    (pre.foldl (S.effect c) { x with commit := false }).latest = some (some c.runId) ∧
      (S.repo → (pre.foldl (S.effect c) { x with commit := false }).hub = some (some c.runId)) := by
  have hearly : (w', Item.rpc .commit d) ∉ ran S.pod c.toTrainCalls c.trainedItems (c.started w) :=
    fun hmem => c.quiet_trained _ (mem_of_ran hmem) trivial
  have hupload : (w', Item.rpc .commit d) ∉ [(c.trainedWorld S.pod w, Item.publish c.publish)] := by simp
  by_cases huploads : c.uploads w
  · by_cases hpublish : c.publish.ok
    · rw [(stage_serve huploads hpublish).2] at h
      obtain ⟨pre1, rfl, hpre1⟩ := exists_of_prefix h hearly
      rw [← List.singleton_append] at hpre1
      obtain ⟨pre2, rfl, hpre2⟩ := exists_of_prefix hpre1 hupload
      have hoffline : ∀ e ∈ pre2, e.2.Offline := fun e he =>
        c.offline_serving e.2 (mem_of_ran (hpre2.subset (List.mem_append_left _ he)))
      rw [List.foldl_append, List.foldl_append]
      obtain ⟨hhub, hlatest, _⟩ := foldl_files (c := c) hoffline (S.publish c (c.trainedSite w x))
      refine ⟨hlatest.trans (if_pos hpublish), fun hrepo => hhub.trans (if_pos ?_)⟩
      rw [Bool.and_eq_true]
      exact ⟨hrepo, c.applied_of_ok hpublish hrepo⟩
    · rw [(stage_upload huploads hpublish).2] at h
      obtain ⟨_, _, hpre⟩ := exists_of_prefix h hearly
      exact absurd (hpre.subset (List.mem_append_right _ List.mem_cons_self)) hupload
  · rw [(stage_early huploads).2] at h
    exact absurd (h.subset (List.mem_append_right _ List.mem_cons_self)) hearly

/-- A run that succeeds. -/
lemma served (hacc : c.accepted w) (hnone : c.failedIn w = none) :
    (w.train S.pod c.toTrainCalls).status.checkpoint = some (some c.runId) ∧
      (c.after w x).latest = some (some c.runId) ∧ (S.repo → (c.after w x).hub = some (some c.runId)) ∧
      (c.after w x).Serves S.pod c.runId := by
  have huploads : c.uploads w := by
    by_contra huploads
    obtain ⟨⟨stage, hstage, _⟩, _⟩ := stage_early huploads
    rw [UploadCalls.failedIn, hstage] at hnone
    cases hnone
  have hpublish : c.publish.ok := by
    by_contra hpublish
    rw [UploadCalls.failedIn, (stage_upload huploads hpublish).1] at hnone
    cases hnone
  have hserving : (doAll (acts S.pod c.toTrainCalls c.servingItems) (c.publishedWorld S.pod w)).2 := by
    rw [UploadCalls.failedIn, (stage_serve huploads hpublish).1] at hnone
    by_contra hret
    rw [if_neg hret] at hnone
    cases hnone
  have hafter : c.after w x = c.staged w x := by
    rw [UploadCalls.after, if_pos hacc, TrainCalls.recoveryTrace]
    rw [UploadCalls.failedIn] at hnone
    generalize w.trainStages S.pod c.toTrainCalls = res at hnone ⊢
    obtain ⟨w1, failed⟩ := res
    cases hnone
    rfl
  obtain ⟨hhub, hlatest, _⟩ := serve_files (x := x) huploads hpublish
  refine ⟨?_, ?_, fun hrepo => ?_, ?_⟩
  · rw [train_checkpoint, if_pos ⟨hacc, hnone⟩]
  · rw [hafter, hlatest, Setup.publish, if_pos hpublish]
  · rw [hafter, hhub, Setup.publish, if_pos]
    rw [Bool.and_eq_true]
    exact ⟨hrepo, c.applied_of_ok hpublish hrepo⟩
  · have htrained : (doAll (acts S.pod c.toTrainCalls c.trainedItems) (c.started w)).2 := by
      rw [doAll_trained, huploads]
      rfl
    rw [hafter, staged_serve huploads hpublish]
    exact leads_serving _ _ (leads_trained _ _ trivial htrained) hserving

/-- What the detail says of the Hub, where no commit is lost. -/
lemma reported_iff (hfresh : x.hub ≠ some (some c.runId)) (h : c.reports w) :
    (c.checkpointPublished w x ↔ (c.after w x).hub = some (some c.runId)) ↔
      ¬ (c.uploads w ∧ S.repo ∧ c.applied ∧ ¬ c.publish.ok) := by
  obtain ⟨hhub, _, hcommit⟩ := after_files (x := x) h.1
  obtain ⟨hhub0, _, hcommit0⟩ := trained_files (c := c) w x
  rw [UploadCalls.checkpointPublished, hcommit, hhub]
  by_cases huploads : c.uploads w
  · by_cases hpublish : c.publish.ok
    · obtain ⟨hhub1, _, hcommit1⟩ := serve_files (x := x) huploads hpublish
      rw [hhub1, hcommit1, Setup.publish]
      cases hrepo : S.repo with
      | true => simp [hpublish, c.applied_of_ok hpublish hrepo]
      | false => simp [hpublish, hhub0, hfresh]
    · rw [staged_upload huploads hpublish, Setup.publish]
      cases hrepo : S.repo with
      | true => cases happlied : c.applied <;> simp [hpublish, huploads, hhub0, hfresh]
      | false => simp [hhub0, hfresh]
  · rw [staged_early huploads, hhub0, hcommit0]
    simp [huploads, hfresh]

/-! ## The whole -/

/-- A run that is not accepted, or whose stages do not get to the upload, or that is to be served. -/
lemma reports_upload (huploads : c.uploads w) (hpublish : ¬ c.publish.ok) : c.reports w ↔
    c.accepted w ∧ ¬ c.recoverKv.raises ∧ ¬ c.recoverAbort.raises := by
  have hstage : c.failedIn w = some .upload := (stage_upload huploads hpublish).1
  rw [UploadCalls.reports, hstage]
  simp

theorem published_iff (c : UploadCalls S) (w : World) (x : Site V) (hfresh : x.hub ≠ some (some c.runId)) :
    Published c w x ↔ ¬ c.Orphans w := by
  constructor
  · rintro h ⟨hacc, huploads, hrepo, happlied, hpublish, hkv, habort⟩
    have hreports : c.reports w := (reports_upload huploads hpublish).mpr ⟨hacc, hkv, habort⟩
    exact (reported_iff hfresh hreports).mp (h.reported hreports) ⟨huploads, hrepo, happlied, hpublish⟩
  · intro h
    exact {
      kept := kept
      committed := fun _ _ _ _ hpre => committed hpre
      served := served
      reported := fun hreports => (reported_iff hfresh hreports).mpr fun ⟨huploads, hrepo, happlied, hpublish⟩ =>
        have hdetail := (reports_upload huploads hpublish).mp hreports
        h ⟨hdetail.1, huploads, hrepo, happlied, hpublish, hdetail.2⟩ }

/-- Two ranks with a repo. The optimizer counts its steps. -/
def countingSetup : Setup ℕ := ⟨twoRanks, true, 0, fun step _ _ _ => step + 1⟩

/-- A site that has published nothing. -/
def emptySite : Site ℕ := ⟨fun _ => ⟨fun _ => 0, none, fun _ => none⟩, none, none, false⟩

/-- A training run of one step whose commit is made; the local pointer is written or not. -/
def pointerRun (wrote : Bool) : UploadCalls countingSetup where
  toTrainCalls := { trainRun with publish := ⟨wrote, false⟩ }
  applied := true
  created := true
  wrote := wrote
  applied_of_created _ := rfl
  publish_ok := rfl

theorem published_iff_pointer : Published (pointerRun true) World.fresh emptySite ∧
    Published (pointerRun false) { World.fresh with status.state := .restoreFailed } emptySite :=
  ⟨(published_iff (pointerRun true) World.fresh emptySite (by decide)).mpr fun h => absurd rfl h.2.2.2.2.1,
    (published_iff (pointerRun false) _ emptySite (by decide)).mpr fun h => absurd h.1 (by decide)⟩

/-- The commit is made and the local pointer is not written: the Hub names the run, the error denies it. -/
theorem orphaned_commit : ¬ ∀ (c : UploadCalls countingSetup) (w : World) (x : Site ℕ),
    x.hub ≠ some (some c.runId) → Published c w x := by
  intro h
  have hreported := (h (pointerRun false) World.fresh emptySite (by decide)).reported
    ⟨rfl, by decide, by decide, by decide, by decide⟩
  exact absurd (hreported.mpr rfl) (by decide)

end SuffixHybrid.Sft
