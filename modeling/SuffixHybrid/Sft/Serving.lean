import SuffixHybrid.Sft.Training

/-!
# What is served, and what the status says

`Consistent`: all ranks serve the shards of the run that the status names, or the base model where it names
none. An operation can break this in its failure path only. `Sound` is the condition on the calls of an
operation under which it does not: what an operation has begun to copy is either copied to every rank, or
cleared on every rank with a status that names no run afterwards.
-/

namespace SuffixHybrid.Sft
open Lib
variable {P : Pod}

instance (P : Pod) (c : Call) : Decidable (c.Complete P) :=
  inferInstanceAs (Decidable (∀ r < P.tp, c.outcome r = .ok))

instance (P : Pod) (c : Call) : Decidable (c.Void P) :=
  inferInstanceAs (Decidable (∀ r < P.tp, c.outcome r = .lost ∨ c.outcome r = .error 0))

namespace World
variable {w w' : World}

/-- The run that the status names. -/
def named (w : World) : Option String := w.status.checkpoint.join

/-- All ranks serve what the status names. -/
def Consistent (P : Pod) (w : World) : Prop := match w.named with
  | some id => w.Serves P id
  | none => w.ServesBase P

instance (P : Pod) (w : World) : Decidable (w.Consistent P) :=
  match h : w.named with
  | some id => decidable_of_iff (w.Serves P id) (by rw [Consistent, h])
  | none => decidable_of_iff (w.ServesBase P) (by rw [Consistent, h])

lemma Consistent.congr (h : w.Consistent P) (hlive : w'.live = w.live) (hnamed : w'.named = w.named) :
    w'.Consistent P := by
  rw [Consistent, hnamed]
  rw [Consistent] at h
  cases hw : w.named with
  | none =>
    rw [hw] at h
    exact fun r hr t ht => (congrFun (congrFun hlive r) t).trans (h r hr t ht)
  | some id =>
    rw [hw] at h
    exact fun r hr t ht => (congrFun (congrFun hlive r) t).trans (h r hr t ht)

lemma Consistent.of_base (h : w.ServesBase P) (hnamed : w.named = none) : w.Consistent P := by
  rw [Consistent, hnamed]
  exact h

lemma Consistent.of_run {id : String} (h : w.Serves P id) (hnamed : w.named = some id) : w.Consistent P := by
  rw [Consistent, hnamed]
  exact h

end World

open World

/-! ## The condition -/

/-- Every rank runs the op to its end, and the call returns. -/
def Call.done (P : Pod) (c : Call) : Bool := !c.raises && decide (c.Complete P)

/-- The attempts of a restore end with a completed load, or they copy nothing to any rank, and find no
checkpoint only where none is named. `torn` says that an attempt has copied. -/
def settles (P : Pod) (named : Option String) : Bool → List Attempt → Bool
  | torn, [] => !torn
  | torn, a :: as =>
    if !a.latest.ok then settles P named torn as
    else if a.pointer.join.isNone then !torn && named.isNone
    else if !a.fetch.ok then settles P named torn as
    else a.load.done P || settles P named (torn || !decide (a.load.Void P)) as

/-- A run that fails in its last stage: neither its commit nor the reset behind it copies anything to a rank,
or the reset is complete and no run is named. -/
def TrainCalls.Sound (P : Pod) (c : TrainCalls) (w : World) : Prop :=
  c.accepted w → (w.trainStages P c).2 = some .serve →
    (¬ c.kvRestore.done P ∨ c.commit.Void P) ∧
        (c.recoverKv.raises ∨ c.recoverAbort.raises ∨ c.recoverReset.Void P) ∨
      ¬ c.recoverKv.raises ∧ ¬ c.recoverAbort.raises ∧ c.recoverReset.Complete P ∧ w.named = none

namespace LoadCalls
variable (P : Pod) (c : LoadCalls)

/-- The preparation returns. -/
def prepared (run : Option String) : Bool :=
  c.privateRepo.ok && (run.isNone || c.runMeta.ok && c.fingerprint && c.fetch.ok)

/-- And so does the rest. -/
def applied : Bool := c.apply.done P && c.publish.ok && c.resetCache.ok

/-- A load that fails behind its preparation: the reset is complete, and returns or finds no run named; or
neither the load nor the reset copies anything to a rank, and the reset raises or finds no run named. -/
def Sound (w : World) : Prop :=
  ∀ run ∈ c.request, c.prepared run → ¬ c.applied P →
    c.recoverReset.Complete P ∧ (¬ c.recoverReset.raises ∨ w.named = none) ∨
      c.apply.Void P ∧ c.recoverReset.Void P ∧ (c.recoverReset.raises ∨ w.named = none)

end LoadCalls

/-- The condition on an operation. -/
def Sound (P : Pod) (w : World) : Operation → Prop
  | .restore c => settles P w.named false c.attempts
  | .train c => c.Sound P w
  | .load c => c.Sound P w

/-! ## Restore -/

lemma returns_of_not_needsRun {op : Op} (h : op.needsRun = false) (c : Call) (w : World) :
    w.returns P op c = c.done P := by
  rw [returns, good, vote, h, Call.done]
  congr 1
  rw [Bool.eq_iff_iff, decide_eq_true_eq, Call.Complete]
  simp

/-- An attempt that finds no run. -/
lemma attempt_none {a : Attempt} (h : a.pointer.join = none) (w : World) :
    doAll (a.actions P) w = (w.serve a.latest.served, a.latest.ok) := by
  rw [Attempt.actions, h, doAll_cons]
  cases hok : a.latest.ok <;> simp [hubA, hok]

/-- An attempt that does not get to the op. -/
lemma attempt_fails {a : Attempt} {id : String} (h : a.pointer.join = some id) (hok : ¬ (a.latest.ok ∧ a.fetch.ok))
    (w : World) : (doAll (a.actions P) w).2 = false ∧ (doAll (a.actions P) w).1.live = w.live := by
  rw [Attempt.actions, h, doAll_cons]
  cases hl : a.latest.ok with
  | false => simp [hubA, hl]
  | true =>
    have hf : a.fetch.ok = false := by simpa [hl] using hok
    simp [hubA, hl, doAll_cons, hf]

/-- An attempt that gets to it. -/
lemma attempt_loads {a : Attempt} {id : String} (h : a.pointer.join = some id) (hl : a.latest.ok) (hf : a.fetch.ok)
    (w : World) : ∃ w1 : World, w1.live = w.live ∧ w1.status = w.status ∧
      doAll (a.actions P) w = (w1.rpc P (.load id) a.load, a.load.done P) := by
  refine ⟨(w.serve a.latest.served).serve a.fetch.served, ?_, ?_, ?_⟩
  · rw [live_serve, live_serve]
  · rw [status_serve, status_serve]
  · rw [Attempt.actions, h, doAll_cons]
    have hret : returns P (.load id) a.load ((w.serve a.latest.served).serve a.fetch.served) = a.load.done P :=
      returns_of_not_needsRun rfl _ _
    cases hdone : a.load.done P <;> simp [hubA, hl, doAll_cons, hf, rpcA, hret, hdone]

lemma attempt_silent (a : Attempt) : ∀ b ∈ a.actions P, b.Silent := by
  intro b hb
  rcases List.mem_cons.mp hb with rfl | hb
  · exact (plain_hubA _).silent
  · cases hp : a.pointer.join with
    | none =>
      rw [hp] at hb
      cases hb
    | some id =>
      rw [hp] at hb
      rcases List.mem_cons.mp hb with rfl | hb
      · exact (plain_hubA _).silent
      · rw [List.mem_singleton.mp hb]
        exact silent_rpcA _ _

/-- A restore from an attempt on, in a world where the earlier ones have copied nothing unless it is torn. -/
lemma restoreFrom_consistent {w : World} (h : w.Consistent P) (text : String) (as : List Attempt) (torn : Bool)
    (hs : settles P w.named torn as) (w' : World) (hlive : torn = false → w'.live = w.live)
    (hnamed : w'.named = w.named) : (w'.restoreFrom P text as).Consistent P := by
  induction as generalizing torn w' with
  | nil =>
    rw [settles, Bool.not_eq_true'] at hs
    exact h.congr (hlive hs) hnamed
  | cons a as ih =>
    have hstatus := (doAll_silent (attempt_silent (P := P) a) w').1
    have hnamed' : (doAll (a.actions P) w').1.named = w.named := by
      rw [named, hstatus]
      exact hnamed
    rw [settles] at hs
    rw [restoreFrom]
    cases hp : a.pointer.join with
    | none =>
      rw [attempt_none hp] at hnamed' ⊢
      rw [hp] at hs
      cases hl : a.latest.ok with
      | false =>
        rw [hl] at hs
        exact ih torn hs _ (fun ht => (live_serve _ _).trans (hlive ht)) hnamed'
      | true =>
        rw [hl] at hs
        -- no checkpoint: the base model is served, and no run is named
        obtain ⟨htorn, hnone⟩ : torn = false ∧ w.named = none := by simpa using hs
        have hcut : w'.Consistent P := h.congr (hlive htorn) hnamed
        refine hcut.congr (live_serve _ _) ?_
        rw [hnamed, hnone]
        exact hp
    | some id =>
      rw [hp] at hs
      by_cases hok : a.latest.ok ∧ a.fetch.ok
      · obtain ⟨hl, hf⟩ := hok
        obtain ⟨w1, hlive1, hstatus1, heq⟩ := attempt_loads (P := P) hp hl hf w'
        rw [heq] at hnamed' ⊢
        rw [hl, hf] at hs
        cases hdone : a.load.done P with
        | true =>
          rw [Call.done, Bool.and_eq_true, decide_eq_true_eq] at hdone
          exact Consistent.of_run (serves_load hdone.2) hp
        | false =>
          rw [hdone] at hs
          refine ih (torn || !decide (a.load.Void P)) (by simpa using hs) _ (fun ht => ?_) hnamed'
          obtain ⟨htorn, hvoid⟩ : torn = false ∧ a.load.Void P := by simpa using ht
          rw [live_rpc_of_void (Or.inr hvoid), hlive1, hlive htorn]
      · obtain ⟨hfalse, hlive1⟩ := attempt_fails (P := P) hp hok w'
        have hs' : settles P w.named torn as := by
          cases hl : a.latest.ok <;> cases hf : a.fetch.ok <;> simp_all
        generalize doAll (a.actions P) w' = res at hfalse hlive1 hnamed' ⊢
        obtain ⟨w1, ok⟩ := res
        subst hfalse
        exact ih torn hs' w1 (fun ht => hlive1.trans (hlive ht)) hnamed'

lemma World.Consistent.restore {w : World} (h : w.Consistent P) {c : RestoreCalls} (hs : settles P w.named false c.attempts) :
    (w.restore P c).Consistent P :=
  restoreFrom_consistent h c.text c.attempts false hs w (fun _ => rfl) rfl

/-! ## Train -/

namespace TrainCalls
variable {c : TrainCalls} {w : World}

/-- The last stage without a copy. -/
lemma serving_live (h : ¬ c.kvRestore.done P ∨ c.commit.Void P) : (doAll (c.serving P) w).1.live = w.live := by
  have hkv : (rpcA P .kvRestore c.kvRestore w).1.live = w.live := (plain_rpcA id c.kvRestore).live w
  rw [serving, doAll_cons]
  split
  next hret =>
    rcases h with h | h
    · rw [rpcA, returns_of_not_needsRun rfl] at hret
      exact absurd hret h
    · refine Eq.trans (doAll_view (f := World.live) fun a ha w' => ?_) hkv
      simp only [List.mem_cons, List.not_mem_nil, or_false] at ha
      rcases ha with rfl | rfl | rfl
      · exact live_rpc_of_void (Or.inr h)
      · exact (plain_resetCacheA c.resetCache).live w'
      · exact (plain_rpcA id c.parityAfter).live w'
  next => exact hkv

/-- The last stage where it returns. -/
lemma serving_serves {start : ℕ → Tensor → Source} (h : Trained P start c.runId w)
    (hret : (doAll (c.serving P) w).2) : (doAll (c.serving P) w).1.Serves P c.runId := by
  rw [serving, doAll_cons] at hret ⊢
  split at hret
  next hkv =>
    have hkept : Trained P start c.runId (rpcA P .kvRestore c.kvRestore w).1 :=
      h.keeps (keepsRuns_rpcA (fun _ => rfl) _) hkv
    rw [if_pos hkv]
    rw [doAll_cons] at hret ⊢
    split at hret
    next hcommit =>
      have hserves := serves_commit hkept hcommit
      rw [if_pos hcommit]
      refine doAll_inv (I := fun w => w.Serves P c.runId) (fun a ha w' hw' => ?_) hserves
      have hlive : (a w').1.live = w'.live := by
        simp only [List.mem_cons, List.not_mem_nil, or_false] at ha
        rcases ha with rfl | rfl
        · exact (plain_resetCacheA c.resetCache).live w'
        · exact (plain_rpcA id c.parityAfter).live w'
      intro r hr t ht
      rw [hlive]
      exact hw' r hr t ht
    next => cases hret
  next => cases hret

lemma serving_silent : ∀ a ∈ c.serving P, a.Silent := by
  intro a ha
  simp only [serving, List.mem_cons, List.not_mem_nil, or_false] at ha
  rcases ha with rfl | rfl | rfl | rfl
  · exact silent_rpcA _ _
  · exact silent_rpcA _ _
  · exact (plain_resetCacheA _).silent
  · exact silent_rpcA _ _

lemma recovery_silent (stage : Stage) : ∀ a ∈ c.recovery P stage, a.Silent := by
  intro a ha
  rcases List.mem_append.mp ha with ha | ha
  · simp only [List.mem_cons, List.not_mem_nil, or_false] at ha
    rcases ha with rfl | rfl
    · exact silent_rpcU _ _
    · exact silent_rpcU _ _
  · split at ha
    · rw [List.mem_singleton.mp ha]
      exact silent_rpcU _ _
    · cases ha

/-- The failure path up to the reset. -/
lemma recovery_cases (stage : Stage) : ∃ w1 : World, w1.live = w.live ∧
    ((c.recoverKv.raises ∨ c.recoverAbort.raises) ∧ doAll (c.recovery P stage) w = (w1, false) ∨
      ¬ c.recoverKv.raises ∧ ¬ c.recoverAbort.raises ∧ stage ≠ .serve ∧
        doAll (c.recovery P stage) w = (w1, true) ∨
      ¬ c.recoverKv.raises ∧ ¬ c.recoverAbort.raises ∧ stage = .serve ∧
        doAll (c.recovery P stage) w = (w1.rpc P .reset c.recoverReset, !c.recoverReset.raises)) := by
  have hkv (w : World) : (w.rpc P .kvRestore c.recoverKv).live = w.live := live_rpc_of_void (Or.inl id)
  have habort (w : World) : (w.rpc P .abort c.recoverAbort).live = w.live := live_rpc_of_void (Or.inl id)
  rw [recovery, List.cons_append, doAll_cons]
  cases hraises : c.recoverKv.raises with
  | true => exact ⟨_, hkv w, Or.inl ⟨Or.inl rfl, by simp [rpcU, hraises]⟩⟩
  | false =>
    rw [if_pos (by simp [rpcU, hraises]), List.cons_append, doAll_cons]
    cases hraises' : c.recoverAbort.raises with
    | true =>
      exact ⟨_, (habort _).trans (hkv w), Or.inl ⟨Or.inr rfl, by simp [rpcU, hraises']⟩⟩
    | false =>
      rw [if_pos (by simp [rpcU, hraises'])]
      refine ⟨_, (habort _).trans (hkv w), Or.inr ?_⟩
      by_cases hstage : stage = .serve
      · refine Or.inr ⟨Bool.false_ne_true, Bool.false_ne_true, hstage, ?_⟩
        cases hreset : c.recoverReset.raises <;> simp [rpcU, hstage, doAll_cons, hreset]
      · exact Or.inl ⟨Bool.false_ne_true, Bool.false_ne_true, hstage, by simp [rpcU, hstage]⟩

end TrainCalls

/-- The stages of a run: an early one fails with the adapters as they were, or the last one is reached with
trained working copies. -/
lemma trainStages_cases (c : TrainCalls) (w : World) : ∃ w1 : World,
    w1.live = w.live ∧ w1.status = (c.started w).status ∧
      ((∃ stage, stage ≠ .serve ∧ w.trainStages P c = (w1, some stage)) ∨
        Trained P w.live c.runId w1 ∧ w.trainStages P c =
          if (doAll (c.serving P) w1).2 then ((doAll (c.serving P) w1).1, none)
          else ((doAll (c.serving P) w1).1, some .serve)) := by
  obtain ⟨hlive, hstatus⟩ := c.early_keeps (P := P) (c.started w)
  refine ⟨(doStages (c.early P) (c.started w)).1, hlive, hstatus, ?_⟩
  rw [trainStages, TrainCalls.stages, doStages_append]
  split
  next hret => exact Or.inr ⟨c.early_trained hret, rfl⟩
  next hfail =>
    obtain ⟨stage, hstage⟩ := Option.ne_none_iff_exists'.mp hfail
    refine Or.inl ⟨stage, ?_, Prod.ext rfl hstage⟩
    rintro rfl
    obtain ⟨s, hs, hserve⟩ := mem_of_doStages hstage
    simp only [TrainCalls.early, List.mem_cons, List.not_mem_nil, or_false] at hs
    rcases hs with rfl | rfl | rfl | rfl <;> cases hserve

/-- The end of a failed run. -/
lemma consistent_failed (c : TrainCalls) (stage : Stage) (res : World × Bool) (h : res.1.Consistent P) :
    (if res.2 then
      { res.1 with status :=
        { res.1.status with state := if stage = .serve then .serveFailedBase else .failed,
                            stage := some stage, error := some c.text } }
      else res.1).Consistent P := by
  split
  · exact h.congr rfl rfl
  · exact h

lemma World.Consistent.train {w : World} (h : w.Consistent P) {c : TrainCalls} (hs : c.Sound P w) :
    (w.train P c).Consistent P := by
  rw [World.train]
  split
  next hacc =>
    have hsound := hs hacc
    obtain ⟨w1, hlive, hstatus, hcases⟩ := trainStages_cases (P := P) c w
    have hnamed : w1.named = w.named := by rw [named, hstatus, named, TrainCalls.started]
    have h1 : w1.Consistent P := h.congr hlive hnamed
    rcases hcases with ⟨stage, hstage, heq⟩ | ⟨htrained, heq⟩
    · rw [heq]
      refine consistent_failed c stage (doAll (c.recovery P stage) w1) ?_
      have hnamed' : (doAll (c.recovery P stage) w1).1.named = w1.named := by
        rw [named, (doAll_silent (c.recovery_silent stage) w1).1, named]
      obtain ⟨w2, hlive2, hrec⟩ := c.recovery_cases (P := P) (w := w1) stage
      rcases hrec with ⟨_, hrec⟩ | ⟨_, _, _, hrec⟩ | ⟨_, _, hserve, _⟩
      · rw [hrec] at hnamed' ⊢
        exact h1.congr hlive2 hnamed'
      · rw [hrec] at hnamed' ⊢
        exact h1.congr hlive2 hnamed'
      · exact absurd hserve hstage
    · rw [heq] at hsound ⊢
      by_cases hret : (doAll (c.serving P) w1).2
      · rw [if_pos hret]
        exact Consistent.of_run (c.serving_serves htrained hret) rfl
      · rw [if_neg hret] at hsound ⊢
        refine consistent_failed c .serve (doAll (c.recovery P .serve) (doAll (c.serving P) w1).1) ?_
        have hnamed' : (doAll (c.recovery P .serve) (doAll (c.serving P) w1).1).1.named = w1.named := by
          rw [named, (doAll_silent (c.recovery_silent .serve) _).1, (doAll_silent c.serving_silent w1).1, named]
        obtain ⟨w2, hlive2, hrec⟩ := c.recovery_cases (P := P) (w := (doAll (c.serving P) w1).1) .serve
        rcases hsound rfl with ⟨hserving, hvoid⟩ | ⟨hkv, habort, hcomplete, hnone⟩
        · have hlive1 := c.serving_live (w := w1) hserving
          rcases hrec with ⟨_, hrec⟩ | ⟨_, _, hstage, _⟩ | ⟨hkv, habort, _, hrec⟩
          · rw [hrec] at hnamed' ⊢
            exact h1.congr (hlive2.trans hlive1) hnamed'
          · exact absurd rfl hstage
          · have hreset : c.recoverReset.Void P := (hvoid.resolve_left hkv).resolve_left habort
            rw [hrec] at hnamed' ⊢
            exact h1.congr ((live_rpc_of_void (Or.inr hreset)).trans (hlive2.trans hlive1)) hnamed'
        · rcases hrec with ⟨hraises, _⟩ | ⟨_, _, hstage, _⟩ | ⟨_, _, _, hrec⟩
          · exact absurd hraises (not_or.mpr ⟨hkv, habort⟩)
          · exact absurd rfl hstage
          · rw [hrec] at hnamed' ⊢
            exact Consistent.of_base (servesBase_reset hcomplete) (hnamed'.trans (hnamed.trans hnone))
  next => exact h.congr rfl rfl

/-! ## Load -/

namespace LoadCalls
variable {c : LoadCalls} {w : World}

lemma prepare_snd (run : Option String) : (doAll (c.prepare run) w).2 = c.prepared run := by
  rw [prepare, prepared, doAll_cons]
  cases hrepo : c.privateRepo.ok with
  | false => simp [hubA, hrepo]
  | true =>
    cases run with
    | none => simp [hubA, hrepo]
    | some id =>
      cases hmeta : c.runMeta.ok <;> cases hprint : c.fingerprint <;> cases hfetch : c.fetch.ok <;>
        simp [hubA, checkA, hrepo, doAll_cons, hmeta, hfetch]

lemma prepare_plain (run : Option String) : ∀ a ∈ c.prepare run, a.Plain := by
  intro a ha
  rcases List.mem_cons.mp ha with rfl | ha
  · exact plain_hubA _
  · split at ha
    · simp only [List.mem_cons, List.not_mem_nil, or_false] at ha
      rcases ha with rfl | rfl | rfl
      · exact plain_hubA _
      · exact plain_checkA _
      · exact plain_hubA _
    · cases ha

lemma apply_snd (run : Option String) : (doAll (c.apply' P run) w).2 = c.applied P := by
  have hop : (op run).needsRun = false := by cases run <;> rfl
  rw [apply', applied, doAll_cons]
  have hret := returns_of_not_needsRun (P := P) hop c.apply w
  cases hdone : c.apply.done P <;> cases hpublish : c.publish.ok <;> cases hreset : c.resetCache.ok <;>
    simp [rpcA, hret, hdone, doAll_cons, hubA, hpublish, resetCacheA, hreset]

/-- Behind the op nothing is copied. -/
lemma apply_live (run : Option String) : (doAll (c.apply' P run) w).1.live = (w.rpc P (op run) c.apply).live := by
  rw [apply', doAll_cons]
  split
  · refine doAll_view (f := World.live) fun a ha w' => ?_
    simp only [List.mem_cons, List.not_mem_nil, or_false] at ha
    rcases ha with rfl | rfl
    · exact live_serve w' _
    · exact (plain_resetCacheA c.resetCache).live w'
  · rfl

lemma apply_silent (run : Option String) : ∀ a ∈ c.apply' P run, a.Silent := by
  intro a ha
  simp only [apply', List.mem_cons, List.not_mem_nil, or_false] at ha
  rcases ha with rfl | rfl | rfl
  · exact silent_rpcA _ _
  · exact (plain_hubA _).silent
  · exact (plain_resetCacheA _).silent

end LoadCalls

lemma World.Consistent.load {w : World} (h : w.Consistent P) {c : LoadCalls} (hs : c.Sound P w) :
    (w.load P c).Consistent P := by
  rw [World.load]
  split
  next => exact h.congr rfl rfl
  next run hrequest =>
    have hlive1 : (doAll (c.prepare run) (c.started w)).1.live = w.live :=
      doAll_view (f := World.live) (w := c.started w) fun a ha w' => (LoadCalls.prepare_plain run a ha).live w'
    have hstatus1 := (doAll_silent (fun a ha => (LoadCalls.prepare_plain (c := c) run a ha).silent) (c.started w)).1
    have hnamed1 : (doAll (c.prepare run) (c.started w)).1.named = w.named := by
      rw [named, hstatus1, LoadCalls.started, named]
    have hprepared := LoadCalls.prepare_snd (c := c) (w := c.started w) run
    generalize doAll (c.prepare run) (c.started w) = res1 at hlive1 hstatus1 hnamed1 hprepared ⊢
    obtain ⟨w1, ok1⟩ := res1
    have h1 : w1.Consistent P := h.congr hlive1 hnamed1
    dsimp only at hprepared ⊢
    split
    next hok1 =>
      have happlied := LoadCalls.apply_snd (P := P) (c := c) (w := w1) run
      have hlive2 := LoadCalls.apply_live (P := P) (c := c) (w := w1) run
      have hstatus2 := (doAll_silent (LoadCalls.apply_silent (P := P) (c := c) run) w1).1
      generalize doAll (c.apply' P run) w1 = res2 at happlied hlive2 hstatus2 ⊢
      obtain ⟨w2, ok2⟩ := res2
      dsimp only at happlied hlive2 hstatus2 ⊢
      have hnamed2 : w2.named = w.named := by
        rw [named, hstatus2]
        exact hnamed1
      split
      next hok2 =>
        rw [happlied, LoadCalls.applied, Bool.and_eq_true, Bool.and_eq_true, Call.done, Bool.and_eq_true,
          decide_eq_true_eq] at hok2
        have hcomplete := hok2.1.1.2
        cases run with
        | some id =>
          refine Consistent.of_run (fun r hr t ht => ?_) rfl
          exact (congrFun (congrFun hlive2 r) t).trans (serves_load hcomplete r hr t ht)
        | none =>
          refine Consistent.of_base (fun r hr t ht => ?_) rfl
          exact (congrFun (congrFun hlive2 r) t).trans (servesBase_reset hcomplete r hr t ht)
      next hok2 =>
        have hbase (hcomplete : c.recoverReset.Complete P) : (w2.rpc P .reset c.recoverReset).ServesBase P :=
          servesBase_reset hcomplete
        have hsame (hvoid : c.apply.Void P) (hreset : c.recoverReset.Void P) :
            (w2.rpc P .reset c.recoverReset).live = w.live := by
          rw [live_rpc_of_void (Or.inr hreset), hlive2, live_rpc_of_void (Or.inr hvoid), hlive1]
        have hsound := hs run hrequest (hprepared ▸ hok1) (happlied ▸ hok2)
        rw [rpcU]
        cases hraises : c.recoverReset.raises with
        | true =>
          rw [hraises] at hsound
          rcases hsound with ⟨hcomplete, hnone⟩ | ⟨hvoid, hreset, _⟩
          · refine Consistent.of_base (hbase hcomplete) ?_
            rw [if_neg (by simp), named, status_rpc]
            exact hnamed2.trans (hnone.resolve_left (not_not.mpr rfl))
          · refine h.congr (hsame hvoid hreset) ?_
            rw [if_neg (by simp), named, status_rpc]
            exact hnamed2
        | false =>
          rw [hraises] at hsound
          rcases hsound with ⟨hcomplete, _⟩ | ⟨hvoid, hreset, hnone⟩
          · exact Consistent.of_base (hbase hcomplete) rfl
          · exact h.congr (hsame hvoid hreset) (hnone.resolve_left Bool.false_ne_true).symm
    next => exact h1.congr rfl rfl

/-! ## Runs -/

lemma World.Consistent.exec {w : World} (h : w.Consistent P) {op : Operation} (hs : Sound P w op) :
    (w.exec P op).Consistent P := by
  cases op with
  | restore c => exact h.restore hs
  | train c => exact h.train hs
  | load c => exact h.load hs

lemma consistent_fresh : fresh.Consistent P := Consistent.of_base (fun _ _ _ _ => rfl) rfl

/-- Between the operations all ranks serve what the status names, as long as the operations are sound. -/
theorem served_consistent {ops : List Operation} (h : Along (step P) (Sound P) fresh ops) :
    ∀ pre, pre <+: ops → (fresh.execAll P pre).Consistent P := by
  rintro pre ⟨rest, rfl⟩
  exact Along.inv (fun w op w' hw hs hstep => Option.some.inj hstep ▸ hw.exec hs) consistent_fresh
    (Along.append.mp h).1 (run_step P pre fresh)

/-! ## Two ranks -/

/-- Two ranks with one adapter. -/
def twoRanks : Pod := ⟨2, [.col]⟩

def hubOk : HubCall := ⟨true, false⟩

/-- A call that ends like this on the second rank. -/
def secondRank (o : Outcome) : Call := ⟨fun r => if r = 1 then o else .ok, false, false⟩

/-- An attempt to restore a run. -/
def restoreRun (o : Outcome) : Attempt := ⟨hubOk, some (some "r"), hubOk, secondRank o⟩

/-- The load of a run that the Hub does not take. -/
def refusedLoad : LoadCalls where
  target := some "s"
  privateRepo := hubOk
  runMeta := hubOk
  fingerprint := true
  fetch := hubOk
  apply := secondRank .ok
  publish := ⟨false, false⟩
  resetCache := hubOk
  recoverReset := secondRank .ok
  text := "conflict"

/-- A restore that succeeds on the second attempt, and a load that falls back to the base model. -/
theorem served_consistent_fallback :
    (fresh.execAll twoRanks [.restore ⟨restoreRun (.error 1), restoreRun .ok, restoreRun .ok, "timeout"⟩,
      .load refusedLoad]).Consistent twoRanks := by
  have h : Along (step twoRanks) (Sound twoRanks) fresh
      [.restore ⟨restoreRun (.error 1), restoreRun .ok, restoreRun .ok, "timeout"⟩, .load refusedLoad] := by
    refine ⟨?_, fun w _ => ⟨?_, fun _ _ => trivial⟩⟩
    · change settles twoRanks _ _ _ = true
      decide
    · intro run _ _ _
      exact Or.inl ⟨by decide, Or.inl (by decide)⟩
  exact served_consistent h _ List.prefix_rfl

/-- Three attempts that fail on the second rank leave the first one on the run. -/
theorem restore_torn : ¬ (fresh.exec twoRanks
    (.restore ⟨restoreRun (.error 0), restoreRun (.error 0), restoreRun (.error 0), "timeout"⟩)).Consistent
      twoRanks := by
  decide

end SuffixHybrid.Sft
