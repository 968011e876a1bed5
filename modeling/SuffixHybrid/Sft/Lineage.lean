import SuffixHybrid.Sft.Serving

/-!
# Where a run starts from

A training run starts from what is served, and its metadata name as its parent what the status names. As
long as the operations are sound, these are the same. A server whose restore has failed refuses to train
until a load has succeeded: loads that fail in their preparation leave the status as it was, but one that
fails later overwrites it, so that the condition `Refuses` excludes it.
-/

namespace SuffixHybrid.Sft
open Lib World
variable {P : Pod}

/-- The metadata name what the run has started from. -/
def Record.Truthful (P : Pod) (m : Record) : Prop := match m.parent with
  | some id => ∀ r < P.tp, ∀ t ∈ P.tensors, m.start r t = .run id
  | none => ∀ r < P.tp, ∀ t ∈ P.zeroed, m.start r t = .initial

/-- An attempt that ends a restore. -/
def Attempt.succeeds (P : Pod) (a : Attempt) : Bool :=
  a.latest.ok && (a.pointer.join.isNone || a.fetch.ok && a.load.done P)

def RestoreCalls.succeeds (P : Pod) (c : RestoreCalls) : Bool := c.attempts.any (Attempt.succeeds P)

def LoadCalls.succeeds (P : Pod) (c : LoadCalls) : Bool :=
  c.request.any fun run => c.prepared run && c.applied P

/-- A server whose restore has failed: no further restore succeeds, and no load fails behind its
preparation. -/
def Refuses (P : Pod) (w : World) (op : Operation) : Prop :=
  w.status.state = .restoreFailed → match op with
    | .restore c => ¬ c.succeeds P
    | .train _ => True
    | .load c => ∀ run ∈ c.request, c.prepared run → c.applied P

/-! ## Parents -/

namespace TrainCalls
variable {c : TrainCalls} {w : World}

/-- The metadata that the checkpoint stage writes. -/
lemma checkpoint_records {start : ℕ → Tensor → Source} (h : Trained P start c.runId w) :
    ∀ m ∈ (doAll (c.checkpoint P) w).1.records,
      m ∈ w.records ∨ m.parent = w.named ∧ ∀ r < P.tp, m.start r = start r := by
  intro m hm
  rw [checkpoint, doAll_cons] at hm
  split at hm
  next =>
    rw [doAll_cons] at hm
    split at hm
    next hsave =>
      have hkept := h.keeps (keepsRuns_rpcA (fun _ => rfl) c.save) hsave
      have hrecords := (silent_rpcA (P := P) .save c.save w).2
      have hstatus := (silent_rpcA (P := P) .save c.save w).1
      have hm' : m ∈ (c.writeMeta (rpcA P .save c.save w).1).1.records := by
        rw [doAll_cons] at hm
        split at hm <;> exact hm
      rcases List.mem_cons.mp hm' with rfl | hm'
      · refine Or.inr ⟨?_, fun r hr => hkept.begun.start_eq hr⟩
        rw [hstatus, named]
      · exact Or.inl (hrecords ▸ hm')
    next => exact Or.inl ((silent_rpcA (P := P) .save c.save w).2 ▸ hm)
  next => exact Or.inl hm

/-- And so for all stages in front of the last one. -/
lemma early_records : ∀ m ∈ (doStages (c.early P) w).1.records,
    m ∈ w.records ∨ m.parent = w.named ∧ ∀ r < P.tp, m.start r = w.live r := by
  intro m hm
  obtain ⟨hstatus1, hrecords1⟩ := doAll_silent (fun a ha => (c.initialization_plain (P := P) a ha).silent) w
  have hlive1 : (doAll (c.initialization P) w).1.live = w.live :=
    doAll_view (f := World.live) fun a ha w' => (c.initialization_plain a ha).live w'
  rw [early, doStages] at hm
  split at hm
  next =>
    generalize (doAll (c.initialization P) w).1 = w1 at hstatus1 hrecords1 hlive1 hm
    obtain ⟨hstatus2, hrecords2⟩ := doAll_silent (fun a ha => (c.training_plain (P := P) a ha).silent) w1
    rw [doStages] at hm
    split at hm
    next htraining =>
      have htrained := c.trained_training htraining
      generalize (doAll (c.training P) w1).1 = w2 at hstatus2 hrecords2 htrained hm
      have hcheckpoint := checkpoint_records htrained
      rw [hrecords2, hrecords1, named, hstatus2, hstatus1, hlive1] at hcheckpoint
      rw [doStages] at hm
      split at hm
      next =>
        have hsilent : ∀ a ∈ [hubA c.publish], a.Silent := by
          intro a ha
          rw [List.mem_singleton.mp ha]
          exact (plain_hubA c.publish).silent
        have hupload := (doAll_silent hsilent (doAll (c.checkpoint P) w2).1).2
        rw [doStages] at hm
        split at hm
        · exact hcheckpoint m (hupload ▸ hm)
        · exact hcheckpoint m (hupload ▸ hm)
      next => exact hcheckpoint m hm
    next => exact Or.inl (hrecords1 ▸ hrecords2 ▸ hm)
  next => exact Or.inl (hrecords1 ▸ hm)

end TrainCalls

/-- The metadata behind a training run: the parent is the named run, and the start is what was served. -/
lemma train_records {c : TrainCalls} {w : World} : ∀ m ∈ (w.train P c).records,
    m ∈ w.records ∨ m.parent = w.named ∧ ∀ r < P.tp, m.start r = w.live r := by
  intro m hm
  have hearly := TrainCalls.early_records (P := P) (c := c) (w := c.started w) m
  rw [World.train] at hm
  split at hm
  next =>
    have hstages : (w.trainStages P c).1.records = (doStages (c.early P) (c.started w)).1.records := by
      rw [trainStages, TrainCalls.stages, doStages_append]
      split
      · rw [doStages]
        split
        · exact (doAll_silent c.serving_silent _).2
        · exact (doAll_silent c.serving_silent _).2
      · rfl
    generalize w.trainStages P c = res at hm hstages
    obtain ⟨w1, failed⟩ := res
    cases failed with
    | none => exact hearly (hstages ▸ hm)
    | some stage =>
      have hrecovery := (doAll_silent (c.recovery_silent (P := P) stage) w1).2
      dsimp only at hm hstages
      split at hm
      · exact hearly (hstages ▸ hrecovery ▸ hm)
      · exact hearly (hstages ▸ hrecovery ▸ hm)
  next => exact Or.inl hm

lemma restoreFrom_records (text : String) (as : List Attempt) (w : World) :
    (w.restoreFrom P text as).records = w.records := by
  induction as generalizing w with
  | nil => rfl
  | cons a as ih =>
    have hattempt := (doAll_silent (attempt_silent (P := P) a) w).2
    rw [restoreFrom]
    generalize doAll (a.actions P) w = res at hattempt
    obtain ⟨w1, ok⟩ := res
    cases ok
    · exact (ih w1).trans hattempt
    · exact hattempt

lemma load_records {c : LoadCalls} {w : World} : (w.load P c).records = w.records := by
  rw [World.load]
  split
  next => rfl
  next run _ =>
    have h1 := (doAll_silent (fun a ha => (LoadCalls.prepare_plain (c := c) run a ha).silent) (c.started w)).2
    generalize doAll (c.prepare run) (c.started w) = res1 at h1
    obtain ⟨w1, ok1⟩ := res1
    have h2 := (doAll_silent (LoadCalls.apply_silent (P := P) (c := c) run) w1).2
    dsimp only at h1 ⊢
    generalize doAll (c.apply' P run) w1 = res2 at h2 ⊢
    obtain ⟨w2, ok2⟩ := res2
    have h3 := (silent_rpcU (P := P) .reset c.recoverReset w2).2
    dsimp only at h2 ⊢
    generalize rpcU P .reset c.recoverReset w2 = res3 at h3 ⊢
    obtain ⟨w3, ok3⟩ := res3
    cases ok1
    · exact h1
    cases ok2
    · cases ok3
      · exact h3.trans (h2.trans h1)
      · exact h3.trans (h2.trans h1)
    · exact h2.trans h1

/-- An operation on a server that serves what it names writes truthful metadata. -/
lemma truthful_exec {w : World} (h : w.Consistent P) {op : Operation} (hw : ∀ m ∈ w.records, m.Truthful P) :
    ∀ m ∈ (w.exec P op).records, m.Truthful P := by
  intro m hm
  cases op with
  | restore c => exact hw m (restoreFrom_records c.text c.attempts w ▸ hm)
  | load c => exact hw m (load_records (P := P) (c := c) (w := w) ▸ hm)
  | train c =>
    rcases train_records m hm with hm | ⟨hparent, hstart⟩
    · exact hw m hm
    · rw [Consistent, ← hparent] at h
      rw [Record.Truthful]
      cases hp : m.parent with
      | none =>
        rw [hp] at h
        exact fun r hr t ht => (congrFun (hstart r hr) t).trans (h r hr t ht)
      | some id =>
        rw [hp] at h
        exact fun r hr t ht => (congrFun (hstart r hr) t).trans (h r hr t ht)

/-! ## Refusing -/

/-- A restore that fails. -/
lemma restoreFrom_fails (text : String) (as : List Attempt) (h : as.any (Attempt.succeeds P) = false) (w : World) :
    (w.restoreFrom P text as).status.state = .restoreFailed := by
  induction as generalizing w with
  | nil => rfl
  | cons a as ih =>
    rw [List.any_cons, Bool.or_eq_false_iff] at h
    have hfails : (doAll (a.actions P) w).2 = false := by
      have ha := h.1
      rw [Attempt.succeeds] at ha
      cases hp : a.pointer.join with
      | none =>
        rw [hp] at ha
        rw [attempt_none hp]
        simpa using ha
      | some id =>
        rw [hp] at ha
        by_cases hok : a.latest.ok ∧ a.fetch.ok
        · obtain ⟨hl, hf⟩ := hok
          obtain ⟨w1, _, _, heq⟩ := attempt_loads (P := P) hp hl hf w
          rw [heq]
          simpa [hl, hf] using ha
        · exact (attempt_fails hp hok w).1
    rw [restoreFrom]
    generalize doAll (a.actions P) w = res at hfails
    obtain ⟨w1, ok⟩ := res
    subst hfails
    exact ih h.2 w1

/-- A load that fails in its preparation. -/
lemma load_unprepared {c : LoadCalls} {w : World} (h : ∀ run ∈ c.request, c.prepared run = false) :
    (w.load P c).status.state = w.status.state := by
  rw [World.load]
  split
  next => rfl
  next run hrun =>
    have hprepared := (LoadCalls.prepare_snd (c := c) (w := c.started w) run).trans (h run hrun)
    generalize doAll (c.prepare run) (c.started w) = res at hprepared
    obtain ⟨w1, ok⟩ := res
    subst hprepared
    rfl

/-- A server whose restore has failed stays so until a load succeeds. -/
lemma restoreFailed_exec {w : World} {op : Operation} (h : w.status.state = .restoreFailed) (hr : Refuses P w op)
    (hload : ∀ c, op = .load c → ¬ c.succeeds P) : (w.exec P op).status.state = .restoreFailed := by
  have hrefuses := hr h
  cases op with
  | restore c => exact restoreFrom_fails c.text c.attempts (Bool.eq_false_iff.mpr hrefuses) w
  | train c =>
    have hacc : c.accepted w = false := by
      rw [TrainCalls.accepted, h]
      exact Bool.and_false _
    rw [World.exec, World.train, hacc]
    exact h
  | load c =>
    refine (load_unprepared fun run hrun => Bool.eq_false_iff.mpr fun hprepared => ?_).trans h
    refine hload c rfl ?_
    rw [LoadCalls.succeeds, Option.any_eq_true]
    exact ⟨run, hrun, Bool.and_eq_true _ _ ▸ ⟨hprepared, hrefuses run hrun hprepared⟩⟩

/-! ## Runs -/

/-- In a run whose steps are sound, and refuse after a failed restore: a run that is accepted starts from what
the status names, all metadata are truthful, and behind a failed restore no run is accepted before a load
has succeeded. -/
theorem lineage_truthful {ops : List Operation}
    (h : Along (step P) (fun w op => Sound P w op ∧ Refuses P w op) fresh ops) :
    (∀ pre c, pre ++ [.train c] <+: ops → c.accepted (fresh.execAll P pre) →
      (fresh.execAll P pre).Consistent P) ∧
    (∀ pre, pre <+: ops → ∀ m ∈ (fresh.execAll P pre).records, m.Truthful P) ∧
    ∀ pre c mid t, pre ++ .restore c :: mid ++ [.train t] <+: ops → ¬ c.succeeds P →
      (∀ l, .load l ∈ mid → ¬ l.succeeds P) → ¬ t.accepted (fresh.execAll P (pre ++ .restore c :: mid)) := by
  have hinv (pre : List Operation) (hpre : pre <+: ops) : (fresh.execAll P pre).Consistent P ∧
      ∀ m ∈ (fresh.execAll P pre).records, m.Truthful P := by
    obtain ⟨rest, rfl⟩ := hpre
    have hstep (w : World) (op : Operation) (w' : World) (hw : w.Consistent P ∧ ∀ m ∈ w.records, m.Truthful P)
        (hs : Sound P w op ∧ Refuses P w op) (hw' : step P w op = some w') :
        w'.Consistent P ∧ ∀ m ∈ w'.records, m.Truthful P := by
      rw [← Option.some.inj hw']
      exact ⟨hw.1.exec hs.1, truthful_exec hw.1 hw.2⟩
    exact Along.inv hstep ⟨consistent_fresh, fun _ hm => absurd hm List.not_mem_nil⟩
      (Along.append.mp h).1 (run_step P pre fresh)
  refine ⟨fun pre c hpre _ => (hinv pre ((List.prefix_append _ _).trans hpre)).1,
    fun pre hpre => (hinv pre hpre).2, ?_⟩
  rintro pre c mid t ⟨rest, rfl⟩ hfails hloads
  have hmid := ((Along.append.mp (Along.append.mp (Along.append.mp h).1).1).2 _ (run_step P pre fresh)).2 _ rfl
  have hfailed : ((fresh.execAll P pre).exec P (.restore c)).status.state = .restoreFailed :=
    restoreFrom_fails c.text c.attempts (Bool.eq_false_iff.mpr hfails) _
  have hfree : Along (step P) (fun _ op => ∀ l, op = .load l → ¬ l.succeeds P)
      ((fresh.execAll P pre).exec P (.restore c)) mid := by
    refine Along.of_forall ?_
    rintro _ op hop l rfl
    exact hloads l hop
  -- every operation in between keeps the state
  have hstate : (((fresh.execAll P pre).exec P (.restore c)).execAll P mid).status.state = .restoreFailed :=
    Along.inv
    (P := fun w op => Refuses P w op ∧ ∀ l, op = .load l → ¬ l.succeeds P)
    (fun w op w' hw hs hstep => Option.some.inj hstep ▸ restoreFailed_exec hw hs.1 hs.2) hfailed
    (Along.and (Along.mono (fun _ _ hs => hs.2) hmid) hfree) (run_step P mid _)
  have heq : fresh.execAll P (pre ++ .restore c :: mid) =
      ((fresh.execAll P pre).exec P (.restore c)).execAll P mid := by
    rw [execAll, List.foldl_append]
    rfl
  rw [heq, TrainCalls.accepted, hstate, bne_self_eq_false, Bool.and_false]
  exact Bool.false_ne_true

/-! ## Two ranks -/

def callOk : Call := secondRank .ok

/-- A training run of one step. -/
def trainRun : TrainCalls where
  valid := true
  runId := "t"
  privateRepo := hubOk
  parityBefore := callOk
  agrees := true
  kvFree := callOk
  begin := callOk
  firstStep := ⟨[callOk], true, callOk⟩
  steps := []
  mkdir := true
  save := callOk
  metadata := true
  publish := hubOk
  kvRestore := callOk
  commit := callOk
  resetCache := hubOk
  parityAfter := callOk
  recoverKv := callOk
  recoverAbort := callOk
  recoverReset := callOk
  text := ""

/-- A restore that does not reach the Hub. -/
def failedRestore : RestoreCalls :=
  ⟨⟨⟨false, false⟩, none, hubOk, callOk⟩, ⟨⟨false, false⟩, none, hubOk, callOk⟩,
    ⟨⟨false, false⟩, none, hubOk, callOk⟩, "timeout"⟩

/-- The load of a run that ends like this on the second rank. -/
def loadRun (o : Outcome) : LoadCalls :=
  { refusedLoad with apply := secondRank o, publish := hubOk }

theorem lineage_truthful_loaded :
    let w := fresh.execAll twoRanks [.restore failedRestore, .load (loadRun .ok), .train trainRun]
    w.records.length = 1 ∧ ∀ m ∈ w.records, m.Truthful twoRanks := by
  have h : Along (step twoRanks) (fun w op => Sound twoRanks w op ∧ Refuses twoRanks w op) fresh
      [.restore failedRestore, .load (loadRun .ok), .train trainRun] := by
    refine ⟨⟨?_, ?_⟩, fun w hw => ⟨⟨?_, ?_⟩, fun w' hw' => ⟨⟨?_, ?_⟩, fun _ _ => trivial⟩⟩⟩
    · change settles twoRanks _ _ _ = true
      decide
    · intro h
      cases h
    · intro run hrun _ happlied
      exact absurd (by decide) happlied
    · intro _ run hrun _
      decide
    · obtain rfl := Option.some.inj hw
      obtain rfl := Option.some.inj hw'
      intro _ hserve
      exact absurd hserve (by decide)
    · exact fun _ => trivial
  exact ⟨by decide, (lineage_truthful h).2.1 _ List.prefix_rfl⟩

/-- A load that fails behind a failed restore opens the server for training. -/
theorem failed_load_accepts : ¬ failedRestore.succeeds twoRanks ∧ ¬ (loadRun (.error 0)).succeeds twoRanks ∧
    trainRun.accepted (fresh.execAll twoRanks [.restore failedRestore, .load (loadRun (.error 0))]) := by
  decide

end SuffixHybrid.Sft
