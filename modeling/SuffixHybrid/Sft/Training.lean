import SuffixHybrid.Sft.Actions

/-!
# A training run

Up to its last stage a training run leaves the adapters and the status alone. Behind the first optimizer
step every rank has a working copy with the values of the run, and the metadata, if they are written, say
what these copies were made from. An operation that fails in an early stage has changed nothing that is
served.
-/

namespace SuffixHybrid.Sft
variable {P : Pod}

/-! ## Working copies -/

namespace World
variable {w : World} {start : ℕ → Tensor → Source} {runId : String}

lemma begun_begin {c : Call} (h : w.returns P .begin c) : Begun P w.live (w.rpc P .begin c) := by
  intro r hr
  rw [ranks_rpc, rpcRanks_returns h hr]
  exact ⟨_, rfl, rfl⟩

/-- An optimizer step. -/
lemma Begun.step {c : Call} (h : Begun P start w) (hret : w.returns P (.step runId) c) :
    Trained P start runId (w.rpc P (.step runId) c) := by
  intro r hr
  obtain ⟨run, hrun, hstart⟩ := h r hr
  rw [ranks_rpc, rpcRanks_returns hret hr]
  refine ⟨{ run with params := fun _ => .run runId }, ?_, hstart, fun _ => rfl⟩
  rw [Op.runAfter, hrun]
  rfl

lemma Begun.keeps {a : Action} (ha : a.KeepsRuns P) (h : Begun P start w) (hret : (a w).2) :
    Begun P start (a w).1 := by
  intro r hr
  rw [ha w hret r hr]
  exact h r hr

lemma Trained.keeps {a : Action} (ha : a.KeepsRuns P) (h : Trained P start runId w) (hret : (a w).2) :
    Trained P start runId (a w).1 := by
  intro r hr
  rw [ha w hret r hr]
  exact h r hr

lemma Begun.start_eq (h : Begun P start w) {r : ℕ} (hr : r < P.tp) : w.start r = start r := by
  obtain ⟨run, hrun, hstart⟩ := h r hr
  rw [World.start, hrun]
  exact hstart

end World

open World

namespace StepCalls

lemma micros_keep (s : StepCalls) : ∀ a ∈ s.micros.map fun c => rpcA P .micro c, a.KeepsRuns P := by
  intro a ha
  obtain ⟨c, _, rfl⟩ := List.mem_map.mp ha
  exact keepsRuns_rpcA (fun _ => rfl) c

/-- A step that returns has trained the working copies. -/
lemma trained {start : ℕ → Tensor → Source} {runId : String} {w : World} (s : StepCalls) (h : Begun P start w)
    (hret : (doAll (s.actions P runId) w).2) : Trained P start runId (doAll (s.actions P runId) w).1 := by
  obtain ⟨hmicros, heq⟩ := doAll_append_returned hret
  have hbegun : Begun P start (doAll (s.micros.map fun c => rpcA P .micro c) w).1 :=
    doAll_returned (fun a ha w' hw' hret' => hw'.keeps (s.micros_keep a ha) hret') h hmicros
  rw [actions] at hret ⊢
  rw [heq] at hret ⊢
  rw [doAll_cons] at hret ⊢
  split at hret
  next hfinite =>
    rw [if_pos hfinite]
    have hcheck : Begun P start (checkA s.finite (doAll (s.micros.map fun c => rpcA P .micro c) w).1).1 :=
      hbegun
    rw [doAll_cons] at hret ⊢
    split at hret
    next hstep =>
      rw [if_pos hstep]
      exact hcheck.step hstep
    next => cases hret
  next => cases hret

lemma plain {runId : String} (s : StepCalls) : ∀ a ∈ s.actions P runId, a.Plain := by
  intro a ha
  rcases List.mem_append.mp ha with ha | ha
  · obtain ⟨c, _, rfl⟩ := List.mem_map.mp ha
    exact plain_rpcA id c
  rcases List.mem_cons.mp ha with rfl | ha
  · exact plain_checkA _
  · rw [List.mem_singleton.mp ha]
    exact plain_rpcA id _

end StepCalls

namespace TrainCalls
variable (c : TrainCalls)

lemma initialization_plain : ∀ a ∈ c.initialization P, a.Plain := by
  intro a ha
  simp only [initialization, List.mem_cons, List.not_mem_nil, or_false] at ha
  rcases ha with rfl | rfl | rfl
  · exact plain_hubA _
  · exact plain_rpcA id _
  · exact plain_checkA _

lemma training_plain : ∀ a ∈ c.training P, a.Plain := by
  intro a ha
  rcases List.mem_append.mp ha with ha | ha
  · simp only [List.mem_cons, List.not_mem_nil, or_false] at ha
    rcases ha with rfl | rfl
    · exact plain_rpcA id _
    · exact plain_rpcA id _
  · obtain ⟨s, _, ha⟩ := List.mem_flatMap.mp ha
    exact s.plain a ha

lemma checkpoint_harmless : ∀ a ∈ c.checkpoint P, a.Harmless := by
  intro a ha
  simp only [checkpoint, List.mem_cons, List.not_mem_nil, or_false] at ha
  rcases ha with rfl | rfl | rfl
  · exact (plain_checkA _).toHarmless
  · exact (plain_rpcA id _).toHarmless
  · exact harmless_writeMeta c

lemma checkpoint_keeps : ∀ a ∈ c.checkpoint P, a.KeepsRuns P := by
  intro a ha
  simp only [checkpoint, List.mem_cons, List.not_mem_nil, or_false] at ha
  rcases ha with rfl | rfl | rfl
  · exact keepsRuns_checkA _
  · exact keepsRuns_rpcA (fun _ => rfl) _
  · exact keepsRuns_writeMeta c

lemma early_harmless : ∀ s ∈ c.early P, ∀ a ∈ s.2, a.Harmless := by
  intro s hs
  simp only [early, List.mem_cons, List.not_mem_nil, or_false] at hs
  rcases hs with rfl | rfl | rfl | rfl
  · exact fun a ha => (c.initialization_plain a ha).toHarmless
  · exact fun a ha => (c.training_plain a ha).toHarmless
  · exact c.checkpoint_harmless
  · intro a ha
    rw [List.mem_singleton.mp ha]
    exact (plain_hubA _).toHarmless

lemma early_keeps (w : World) :
    (doStages (c.early P) w).1.live = w.live ∧ (doStages (c.early P) w).1.status = w.status :=
  doStages_inv (I := fun w' => w'.live = w.live ∧ w'.status = w.status)
    (fun s hs a ha w' hw' =>
      have h := early_harmless c s hs a ha
      ⟨(h.live w').trans hw'.1, (h.status w').trans hw'.2⟩) ⟨rfl, rfl⟩

/-- Further steps. -/
lemma trained_more {start : ℕ → Tensor → Source} {w : World} {runId : String} (ss : List StepCalls)
    (h : Trained P start runId w) (hret : (doAll (ss.flatMap (StepCalls.actions P runId)) w).2) :
    Trained P start runId (doAll (ss.flatMap (StepCalls.actions P runId)) w).1 := by
  induction ss generalizing w with
  | nil => exact h
  | cons s ss ih =>
    rw [List.flatMap_cons] at hret ⊢
    obtain ⟨hs, heq⟩ := doAll_append_returned hret
    rw [heq] at hret ⊢
    exact ih (s.trained h.begun hs) hret

/-- Behind the optimizer steps. -/
lemma trained_steps {start : ℕ → Tensor → Source} {w : World} (h : Begun P start w)
    (hret : (doAll ((c.firstStep :: c.steps).flatMap (StepCalls.actions P c.runId)) w).2) :
    Trained P start c.runId (doAll ((c.firstStep :: c.steps).flatMap (StepCalls.actions P c.runId)) w).1 := by
  rw [List.flatMap_cons] at hret ⊢
  obtain ⟨hfirst, heq⟩ := doAll_append_returned hret
  rw [heq] at hret ⊢
  exact trained_more c.steps (c.firstStep.trained h hfirst) hret

/-- The stages up to the last optimizer step. -/
lemma trained_training {w : World} (hret : (doAll (c.training P) w).2) :
    Trained P w.live c.runId (doAll (c.training P) w).1 := by
  rw [training, List.cons_append, doAll_cons] at hret ⊢
  split at hret
  next hkv =>
    rw [if_pos hkv]
    have hlive : (rpcA P .kvFree c.kvFree w).1.live = w.live := (plain_rpcA id c.kvFree).live w
    rw [List.cons_append, doAll_cons] at hret ⊢
    split at hret
    next hbegin =>
      rw [if_pos hbegin]
      have hbegun := begun_begin hbegin
      rw [hlive] at hbegun
      exact c.trained_steps hbegun hret
    next => cases hret
  next => cases hret

/-- If the stages in front of the last one return, the working copies are trained. -/
lemma early_trained {w : World} (h : (doStages (c.early P) w).2 = none) :
    Trained P w.live c.runId (doStages (c.early P) w).1 := by
  have hret := doAll_of_doStages h
  have hlist : (c.early P).flatMap Prod.snd =
      c.initialization P ++ (c.training P ++ (c.checkpoint P ++ [hubA c.publish])) := by
    simp only [early, List.flatMap_cons, List.flatMap_nil, List.append_nil]
  rw [hlist] at hret
  obtain ⟨hstate, hret⟩ := Prod.ext_iff.mp hret
  obtain ⟨_, heq⟩ := doAll_append_returned hret
  rw [heq] at hret hstate
  obtain ⟨htraining, heq⟩ := doAll_append_returned hret
  rw [heq] at hret hstate
  have hlive : (doAll (c.initialization P) w).1.live = w.live :=
    doAll_view (f := World.live) fun a ha w' => (c.initialization_plain a ha).live w'
  have htrained := c.trained_training htraining
  rw [hlive] at htrained
  rw [← hstate]
  refine doAll_returned (fun a ha w' hw' hret' => hw'.keeps ?_ hret') htrained hret
  rcases List.mem_append.mp ha with ha | ha
  · exact c.checkpoint_keeps a ha
  · rw [List.mem_singleton.mp ha]
    exact keepsRuns_hubA _

end TrainCalls

end SuffixHybrid.Sft
