import SuffixHybrid.Sft.Lineage
import SuffixHybrid.Sft.Script

/-!
# Whether the memory of a rank is mapped

`kv_free` puts a rank to sleep and wakes its weights, `kv_restore` wakes the rest. Both swallow what the
worker raises and answer `ok=False`, which is no error to `State.rpc`: the run goes on. What becomes of a
run with `free_kv` is a condition on those calls (`restores_iff`).
-/

namespace SuffixHybrid.Sft

/-! ## The worker -/

/-- What of a rank is mapped. -/
structure Mapped where
  weights : Bool
  kv : Bool

/-- A call of `sleep` or `wake_up`: whether it raises, and whether it takes effect. -/
structure WorkerCall where
  raises : Bool
  effective : Bool
  effective_of_returns : raises = false → effective

/-- `sleep(1)`. -/
def WorkerCall.sleep (d : WorkerCall) (m : Mapped) : Mapped := if d.effective then ⟨false, false⟩ else m

/-- `wake_up(["weights"])`. -/
def WorkerCall.wakeWeights (d : WorkerCall) (m : Mapped) : Mapped :=
  if d.effective then { m with weights := true } else m

/-- `wake_up()`. -/
def WorkerCall.wakeUp (d : WorkerCall) (m : Mapped) : Mapped := if d.effective then ⟨true, true⟩ else m

/-- The calls of a run on the workers of a pod, with `free_kv`. A batch packs to at least one micro-batch. -/
structure MappingCalls extends TrainCalls where
  sleep : ℕ → WorkerCall
  wakeWeights : ℕ → WorkerCall
  wakeUp : ℕ → WorkerCall
  wakeUpRecover : ℕ → WorkerCall
  micros_ne_nil : firstStep.micros ≠ []

namespace MappingCalls
variable (c : MappingCalls)

/-- `kv_free` on a rank. -/
def kvFreed (r : ℕ) (m : Mapped) : Mapped :=
  if (c.sleep r).raises then (c.sleep r).sleep m else (c.wakeWeights r).wakeWeights ((c.sleep r).sleep m)

/-- What an item does to the mappings of the pod. -/
def effect (P : Pod) (m : ℕ → Mapped) : World × Item → ℕ → Mapped
  | (_, .rpc .kvFree d) => fun r => if r < P.tp ∧ d.outcome r ≠ .lost then c.kvFreed r (m r) else m r
  | (_, .rpc .kvRestore d) => fun r => if r < P.tp ∧ d.outcome r ≠ .lost then (c.wakeUp r).wakeUp (m r) else m r
  | (_, .unchecked .kvRestore d) => fun r =>
    if r < P.tp ∧ d.outcome r ≠ .lost then (c.wakeUpRecover r).wakeUp (m r) else m r
  | _ => m

/-- The mappings behind the call. -/
def after (P : Pod) (w : World) (m : ℕ → Mapped) : ℕ → Mapped :=
  if c.accepted w then (c.recoveryTrace P w).foldl (c.effect P) ((c.trace P w).foldl (c.effect P) m) else m

/-- The call reports success. -/
def succeeds (P : Pod) (w : World) : Prop := c.accepted w ∧ (w.trainStages P c.toTrainCalls).2 = none

/-- A `wake_up` raises on a rank that serves the run. -/
def MappingFails (r : ℕ) : Prop :=
  (c.sleep r).raises = false ∧ (c.wakeWeights r).raises ∨ (c.wakeUp r).raises

end MappingCalls

/-- No micro-batch runs on a rank whose weights are not mapped; behind a call that succeeds all is mapped;
and a rank whose mapping failed makes the call fail. -/
structure Restores (P : Pod) (c : MappingCalls) (w : World) (m : ℕ → Mapped) : Prop where
  trains : c.accepted w → ∀ pre w' d, pre ++ [(w', .rpc .micro d)] <+: c.trace P w → w'.vote P .micro →
    ∀ r < P.tp, d.outcome r ≠ .lost → (pre.foldl (c.effect P) m r).weights
  mapped : c.succeeds P w → ∀ r < P.tp, (c.after P w m r).weights ∧ (c.after P w m r).kv
  failed : ∀ r < P.tp, c.MappingFails r → ¬ c.succeeds P w

/-! ## The condition -/

/-- A part of a run returns. -/
def StepCalls.Done (P : Pod) (s : StepCalls) : Prop :=
  (∀ d ∈ s.micros, d.done P) ∧ s.finite ∧ s.step.done P

namespace TrainCalls
variable (P : Pod) (c : TrainCalls)

/-- The calls up to the first micro-batch return. -/
def Begins : Prop := c.privateRepo.ok ∧ c.parityBefore.done P ∧ c.agrees ∧ c.kvFree.done P ∧ c.begin.done P

/-- All calls return. -/
def Completes : Prop :=
  c.Begins P ∧ (∀ s ∈ c.firstStep :: c.steps, s.Done P) ∧ (c.mkdir ∧ c.save.done P ∧ c.metadata) ∧ c.publish.ok ∧
    c.kvRestore.done P ∧ c.commit.done P ∧ c.resetCache.ok ∧ c.parityAfter.done P

end TrainCalls

/-- Where a run gets to its first micro-batch, the ranks that run it have their weights behind `kv_free`;
where all calls of a run return, no `wake_up` has raised. -/
def MappingCalls.Safe (P : Pod) (c : MappingCalls) (w : World) (m : ℕ → Mapped) : Prop :=
  c.accepted w →
    (c.Begins P → ∀ r < P.tp, (c.firstStep.micros.head c.micros_ne_nil).outcome r ≠ .lost →
      (c.kvFreed r (m r)).weights) ∧
    (c.Completes P → ∀ r < P.tp, ¬ c.MappingFails r)

/-! ## When the items return -/

/-- What an item needs to return, apart from the vote. -/
def Item.Passes (P : Pod) (c : TrainCalls) : Item → Prop
  | .hub d => d.ok
  | .check ok => ok
  | .rpc _ d => d.done P
  | .unchecked _ d => ¬ d.raises
  | .resetCache d => d.ok
  | .writeMeta => c.metadata
  | .publish d => d.ok

/-- The item needs no run. -/
def Item.Free : Item → Prop
  | .rpc op _ => op.needsRun = false
  | _ => True

/-- Every rank has a run. -/
def World.Running (P : Pod) (w : World) : Prop := ∀ r < P.tp, (w.ranks r).run.isSome

section
variable {P : Pod} {c : TrainCalls} {w : World} {is : List Item}

lemma World.Running.vote (h : w.Running P) (op : Op) : w.vote P op := by
  rw [World.vote, Bool.or_eq_true, List.all_eq_true]
  exact Or.inr fun r hr => h r (List.mem_range.mp hr)

lemma returns_of_vote {op : Op} (h : w.vote P op) (d : Call) : w.returns P op d = d.done P := by
  rw [World.returns, World.good, h, Bool.true_and, Call.done]
  congr 1
  rw [Bool.eq_iff_iff, decide_eq_true_eq, Call.Complete]
  simp

lemma passes_of_free {i : Item} (h : i.Free) (w : World) : (i.action P c w).2 = true ↔ i.Passes P c := by
  cases i with
  | rpc op d =>
    change w.returns P op d = true ↔ d.done P
    rw [returns_of_not_needsRun h]
  | unchecked op d =>
    change (!d.raises) = true ↔ ¬ d.raises
    rw [Bool.not_eq_true', Bool.not_eq_true]
  | _ => exact Iff.rfl

lemma passes_of_running (h : w.Running P) (i : Item) : (i.action P c w).2 = true ↔ i.Passes P c := by
  cases i with
  | rpc op d =>
    change w.returns P op d = true ↔ d.done P
    rw [returns_of_vote (h.vote op)]
  | unchecked op d => exact passes_of_free (i := .unchecked op d) trivial w
  | _ => exact Iff.rfl

/-- Items in a row return if each of them passes, where each returns if it passes. -/
lemma doAll_iff {I : World → Prop} (hpass : ∀ i ∈ is, ∀ w, I w → ((i.action P c w).2 = true ↔ i.Passes P c))
    (hkeep : ∀ i ∈ is, ∀ w, I w → (i.action P c w).2 → I (i.action P c w).1) (hw : I w) :
    (doAll (acts P c is) w).2 = true ↔ ∀ i ∈ is, i.Passes P c := by
  induction is generalizing w with
  | nil => simp [acts]
  | cons i is ih =>
    rw [acts, List.map_cons, doAll_cons, List.forall_mem_cons]
    split
    next hi =>
      rw [← acts, ih (fun j hj => hpass j (List.mem_cons_of_mem i hj)) (fun j hj => hkeep j (List.mem_cons_of_mem i hj))
        (hkeep i List.mem_cons_self w hw hi), and_iff_right ((hpass i List.mem_cons_self w hw).mp hi)]
    next hi =>
      have hnot : ¬ i.Passes P c := fun h => hi ((hpass i List.mem_cons_self w hw).mpr h)
      simp [hnot]

lemma doAll_append_iff (is js : List Item) (w : World) : (doAll (acts P c (is ++ js)) w).2 = true ↔
    (doAll (acts P c is) w).2 = true ∧ (doAll (acts P c js) (doAll (acts P c is) w).1).2 = true := by
  rw [acts_append, doAll_append]
  split
  next h => rw [and_iff_right h]
  next h => simp [h]

lemma doAll_free (h : ∀ i ∈ is, i.Free) (w : World) :
    (doAll (acts P c is) w).2 = true ↔ ∀ i ∈ is, i.Passes P c :=
  doAll_iff (I := fun _ => True) (fun i hi w _ => passes_of_free (h i hi) w) (fun _ _ _ _ _ => trivial) trivial

/-- The item leaves the runs where it returns, or trains them. -/
def Item.Trains : Item → Prop
  | .rpc op _ => op ≠ .begin ∧ op ≠ .commit ∧ op ≠ .abort
  | .unchecked _ _ => False
  | _ => True

lemma running_action {i : Item} (hi : i.Trains) (hw : w.Running P) (hret : (i.action P c w).2) :
    (i.action P c w).1.Running P := by
  intro r hr
  have hrun := hw r hr
  cases i with
  | rpc op d =>
    rw [Item.action, rpcA, World.ranks_rpc, World.rpcRanks_returns hret hr]
    cases op with
    | begin => exact absurd rfl hi.1
    | commit => exact absurd rfl hi.2.1
    | abort => exact absurd rfl hi.2.2
    | step id =>
      dsimp only [Op.runAfter]
      rw [Option.isSome_map]
      exact hrun
    | _ => exact hrun
  | unchecked op d => exact hi.elim
  | resetCache d =>
    rw [Item.action, resetCacheA, World.ranks_serve]
    split
    · exact hrun
    · exact hrun
  | hub d =>
    rw [Item.action, hubA, World.ranks_serve]
    exact hrun
  | publish d =>
    rw [Item.action, hubA, World.ranks_serve]
    exact hrun
  | check ok => exact hrun
  | writeMeta => exact hrun

lemma doAll_running (h : ∀ i ∈ is, i.Trains) (hw : w.Running P) :
    ((doAll (acts P c is) w).2 = true ↔ ∀ i ∈ is, i.Passes P c) ∧
      ((doAll (acts P c is) w).2 → (doAll (acts P c is) w).1.Running P) := by
  refine ⟨doAll_iff (fun i _ w hw => passes_of_running hw i) (fun i hi w hw => running_action (h i hi) hw) hw,
    fun hret => doAll_returned (fun a ha w hw => ?_) hw hret⟩
  obtain ⟨i, hi, rfl⟩ := List.mem_map.mp ha
  exact running_action (h i hi) hw

end

/-! ## When a run completes -/

namespace TrainCalls
variable {P : Pod} {c : TrainCalls} {w : World}

/-- The items up to the first micro-batch. -/
def beginItems (c : TrainCalls) : List Item :=
  c.initializationItems ++ [.rpc .kvFree c.kvFree, .rpc .begin c.begin]

/-- The items between `begin` and `commit`. -/
def runItems (c : TrainCalls) : List Item :=
  (c.firstStep :: c.steps).flatMap (StepCalls.items c.runId) ++ c.checkpointItems ++
    [.publish c.publish, .rpc .kvRestore c.kvRestore]

/-- The items behind `commit`. -/
def endItems (c : TrainCalls) : List Item := [.resetCache c.resetCache, .rpc .eval c.parityAfter]

lemma items_split (c : TrainCalls) :
    c.items = c.beginItems ++ (c.runItems ++ .rpc .commit c.commit :: c.endItems) := by
  simp [items_eq, trainedItems, trainingScript, trainingItems, servingItems, beginItems, runItems, endItems]

lemma begins_iff (w : World) : (doAll (acts P c c.beginItems) w).2 = true ↔ c.Begins P := by
  rw [doAll_free]
  · simp [beginItems, initializationItems, Item.Passes, Begins]
  · intro i hi
    simp only [beginItems, initializationItems, List.mem_append, List.mem_cons, List.not_mem_nil, or_false] at hi
    obtain (rfl | rfl | rfl) | rfl | rfl := hi <;> trivial

/-- Behind `begin` every rank has a run. -/
lemma running_begins (h : (doAll (acts P c c.beginItems) w).2) : (doAll (acts P c c.beginItems) w).1.Running P := by
  have hlist : c.beginItems = (c.initializationItems ++ [.rpc .kvFree c.kvFree]) ++ [.rpc .begin c.begin] := by
    simp [beginItems]
  rw [hlist, acts_append] at h ⊢
  obtain ⟨_, heq⟩ := doAll_append_returned h
  rw [heq] at h ⊢
  generalize (doAll (acts P c (c.initializationItems ++ [.rpc .kvFree c.kvFree])) w).1 = w' at h ⊢
  rw [acts, List.map_singleton, doAll_cons] at h ⊢
  split at h
  next hret =>
    rw [if_pos hret]
    intro r hr
    obtain ⟨run, hrun, _⟩ := World.begun_begin hret r hr
    exact Option.isSome_iff_exists.mpr ⟨run, hrun⟩
  next => cases h

lemma trains_run (c : TrainCalls) : ∀ i ∈ c.runItems, i.Trains := by
  intro i hi
  simp only [runItems, checkpointItems, List.mem_append, List.mem_cons, List.not_mem_nil, or_false] at hi
  obtain (hi | rfl | rfl | rfl) | rfl | rfl := hi
  · obtain ⟨s, _, hi⟩ := List.mem_flatMap.mp hi
    simp only [StepCalls.items, List.mem_append, List.mem_map, List.mem_cons, List.not_mem_nil, or_false] at hi
    obtain ⟨d, _, rfl⟩ | rfl | rfl := hi
    · exact ⟨by simp, by simp, by simp⟩
    · trivial
    · exact ⟨by simp, by simp, by simp⟩
  · trivial
  · exact ⟨by simp, by simp, by simp⟩
  · trivial
  · trivial
  · exact ⟨by simp, by simp, by simp⟩

lemma passes_run (c : TrainCalls) : (∀ i ∈ c.runItems, i.Passes P c) ↔
    (∀ s ∈ c.firstStep :: c.steps, s.Done P) ∧ (c.mkdir ∧ c.save.done P ∧ c.metadata) ∧ c.publish.ok ∧
      c.kvRestore.done P := by
  have hsteps : (∀ i ∈ (c.firstStep :: c.steps).flatMap (StepCalls.items c.runId), i.Passes P c) ↔
      ∀ s ∈ c.firstStep :: c.steps, s.Done P := by
    rw [List.forall_mem_flatMap]
    refine forall₂_congr fun s _ => ?_
    rw [StepCalls.items, List.forall_mem_append, List.forall_mem_map]
    simp [Item.Passes, StepCalls.Done]
  rw [runItems, List.forall_mem_append, List.forall_mem_append, hsteps]
  simp [checkpointItems, Item.Passes, and_assoc]

lemma passes_end (w : World) : (doAll (acts P c c.endItems) w).2 = true ↔ c.resetCache.ok ∧ c.parityAfter.done P := by
  rw [doAll_free]
  · simp [endItems, Item.Passes]
  · intro i hi
    simp only [endItems, List.mem_cons, List.not_mem_nil, or_false] at hi
    obtain rfl | rfl := hi <;> trivial

/-- The run gets through all its stages if every call returns. -/
lemma completes_iff (P : Pod) (c : TrainCalls) (w : World) : (w.trainStages P c).2 = none ↔ c.Completes P := by
  have hstages : (w.trainStages P c).2 = none ↔ (doAll (acts P c c.items) (c.started w)).2 = true := by
    rw [World.trainStages, items, acts_flat, stagesOf_script, doStages_flat, Option.isNone_iff_eq_none]
  rw [hstages, items_split, doAll_append_iff, doAll_append_iff, begins_iff, Completes]
  refine and_congr_right fun hbegins => ?_
  have hrun := doAll_running (c := c) c.trains_run (running_begins ((begins_iff (c.started w)).mpr hbegins))
  have hlast (w : World) (hready : w.Running P) :
      (doAll (acts P c (.rpc .commit c.commit :: c.endItems)) w).2 = true ↔
        c.commit.done P ∧ c.resetCache.ok ∧ c.parityAfter.done P := by
    rw [acts, List.map_cons, doAll_cons]
    split
    next hcommit =>
      have hdone : c.commit.done P := (passes_of_running hready _).mp hcommit
      rw [← acts, passes_end, and_iff_right hdone]
    next hcommit =>
      have hnot : ¬ c.commit.done P := fun h => hcommit ((passes_of_running hready _).mpr h)
      simp [hnot]
  constructor
  · rintro ⟨hitems, hcommit⟩
    obtain ⟨hsteps, hcheckpoint, hpublish, hrestore⟩ := c.passes_run.mp (hrun.1.mp hitems)
    exact ⟨hsteps, hcheckpoint, hpublish, hrestore, (hlast _ (hrun.2 hitems)).mp hcommit⟩
  · rintro ⟨hsteps, hcheckpoint, hpublish, hrestore, hcommit⟩
    have hitems := hrun.1.mpr (c.passes_run.mpr ⟨hsteps, hcheckpoint, hpublish, hrestore⟩)
    exact ⟨hitems, (hlast _ (hrun.2 hitems)).mpr hcommit⟩

end TrainCalls

/-! ## The mappings -/

/-- The item leaves the mappings alone. -/
def Item.Unmapping : Item → Prop
  | .rpc .kvFree _ => False
  | .rpc .kvRestore _ => False
  | .unchecked .kvRestore _ => False
  | _ => True

section
variable {P : Pod} {c : MappingCalls} {w : World} {m : ℕ → Mapped}

lemma effect_eq {i : Item} (h : i.Unmapping) (w : World) (m : ℕ → Mapped) : c.effect P m (w, i) = m := by
  cases i with
  | rpc op d => cases op <;> first | rfl | exact h.elim
  | unchecked op d => cases op <;> first | rfl | exact h.elim
  | _ => rfl

lemma foldl_mappings {es : List (World × Item)} (h : ∀ e ∈ es, e.2.Unmapping) (m : ℕ → Mapped) :
    es.foldl (c.effect P) m = m := by
  induction es generalizing m with
  | nil => rfl
  | cons e es ih =>
    rw [List.foldl_cons, effect_eq (h e List.mem_cons_self), ih fun e' he' => h e' (List.mem_cons_of_mem e he')]

/-- The items of the optimizer steps. -/
def TrainCalls.stepItems (c : TrainCalls) : List Item :=
  (c.firstStep :: c.steps).flatMap (StepCalls.items c.runId)

lemma unmapping_steps (c : TrainCalls) : ∀ i ∈ c.stepItems, i.Unmapping := by
  intro i hi
  obtain ⟨s, _, hi⟩ := List.mem_flatMap.mp hi
  simp only [StepCalls.items, List.mem_append, List.mem_map, List.mem_cons, List.not_mem_nil, or_false] at hi
  obtain ⟨d, _, rfl⟩ | rfl | rfl := hi <;> trivial

/-- What `kv_free` leaves of a rank, behind the items up to the first micro-batch. -/
lemma foldl_begin (h : c.Begins P) (w : World) (m : ℕ → Mapped) {r : ℕ} (hr : r < P.tp) :
    (ran P c.toTrainCalls c.beginItems w).foldl (c.effect P) m r = c.kvFreed r (m r) := by
  have hcomplete : c.kvFree.outcome r = .ok := by
    have hdone := h.2.2.2.1
    rw [Call.done, Bool.and_eq_true] at hdone
    exact of_decide_eq_true hdone.2 r hr
  have hlist : c.beginItems = c.initializationItems ++ ([.rpc .kvFree c.kvFree] ++ [.rpc .begin c.begin]) := by
    simp [TrainCalls.beginItems]
  have hret := (TrainCalls.begins_iff (c := c.toTrainCalls) w).mpr h
  rw [hlist, doAll_append_iff, doAll_append_iff] at hret
  rw [hlist, ran_append, if_pos hret.1, ran_append, if_pos hret.2.1, List.foldl_append, List.foldl_append]
  have hinit : (ran P c.toTrainCalls c.initializationItems w).foldl (c.effect P) m = m := by
    refine foldl_mappings (fun e he => ?_) m
    have hmem := mem_of_ran he
    simp only [TrainCalls.initializationItems, List.mem_cons, List.not_mem_nil, or_false] at hmem
    obtain heq | heq | heq := hmem <;> rw [heq] <;> trivial
  rw [hinit, @foldl_mappings P c (ran P c.toTrainCalls [.rpc .begin c.begin] _)]
  · rw [ran_singleton, List.foldl_cons, List.foldl_nil]
    exact if_pos ⟨hr, by rw [hcomplete]; decide⟩
  · intro e he
    rw [List.mem_singleton.mp (mem_of_ran he)]
    trivial

/-- The items behind the optimizer steps. -/
def TrainCalls.tailItems (c : TrainCalls) : List Item :=
  c.checkpointItems ++ [.publish c.publish, .rpc .kvRestore c.kvRestore] ++ .rpc .commit c.commit :: c.endItems

lemma items_steps (c : TrainCalls) : c.items = c.beginItems ++ (c.stepItems ++ c.tailItems) := by
  rw [TrainCalls.items_split, TrainCalls.runItems, TrainCalls.stepItems, TrainCalls.tailItems]
  simp only [List.append_assoc]

/-- The first micro-batch. -/
def MappingCalls.firstMicro (c : MappingCalls) : Call := c.firstStep.micros.head c.micros_ne_nil

lemma stepItems_eq (c : MappingCalls) : ∃ is, c.stepItems = .rpc .micro c.firstMicro :: is := by
  rw [TrainCalls.stepItems, List.flatMap_cons, StepCalls.items, ← List.cons_head_tail c.micros_ne_nil]
  exact ⟨_, rfl⟩

/-- A micro-batch is run behind `begin`, and behind the first one or as the first one. -/
lemma micro_begins {pre : List (World × Item)} {w' : World} {d : Call}
    (h : pre ++ [(w', .rpc .micro d)] <+: c.trace P w) : c.Begins P ∧
      ∃ pre', pre = ran P c.toTrainCalls c.beginItems (c.started w) ++ pre' ∧
        pre' ++ [(w', .rpc .micro d)] <+:
          ran P c.toTrainCalls c.stepItems (doAll (acts P c.toTrainCalls c.beginItems) (c.started w)).1 := by
  have hbegin : (w', Item.rpc .micro d) ∉ ran P c.toTrainCalls c.beginItems (c.started w) := by
    intro hmem
    simpa [TrainCalls.beginItems, TrainCalls.initializationItems] using mem_of_ran hmem
  have htail (w1 : World) : (w', Item.rpc .micro d) ∉ ran P c.toTrainCalls c.tailItems w1 := by
    intro hmem
    simpa [TrainCalls.tailItems, TrainCalls.checkpointItems, TrainCalls.endItems] using mem_of_ran hmem
  rw [TrainCalls.trace, items_steps, ran_append, ran_append] at h
  obtain ⟨pre', rfl, hpre⟩ := exists_of_prefix h hbegin
  split at hpre
  next hret =>
    refine ⟨(TrainCalls.begins_iff _).mp hret, pre', rfl, prefix_of_notMem hpre ?_⟩
    split
    · exact htail _
    · exact List.not_mem_nil
  next => simp at hpre

lemma foldl_micro {pre : List (World × Item)} {w' : World} {d : Call} {r : ℕ}
    (h : pre ++ [(w', .rpc .micro d)] <+: c.trace P w) (m : ℕ → Mapped) (hr : r < P.tp) :
    pre.foldl (c.effect P) m r = c.kvFreed r (m r) := by
  obtain ⟨hbegins, pre', rfl, hpre⟩ := micro_begins h
  have hunmapping : ∀ e ∈ pre', e.2.Unmapping := fun e he =>
    unmapping_steps c.toTrainCalls e.2 (mem_of_ran (hpre.subset (List.mem_append_left _ he)))
  rw [List.foldl_append, foldl_mappings hunmapping, foldl_begin hbegins _ m hr]

/-- A rank that runs a micro-batch has run the first one. -/
lemma firstMicro_ran {pre : List (World × Item)} {w' : World} {d : Call} {r : ℕ}
    (h : pre ++ [(w', .rpc .micro d)] <+: c.trace P w) (hr : r < P.tp) (hlost : d.outcome r ≠ .lost) :
    c.firstMicro.outcome r ≠ .lost := by
  obtain ⟨_, pre', _, hpre⟩ := micro_begins h
  obtain ⟨is, his⟩ := stepItems_eq c
  rw [his, ran] at hpre
  cases pre' with
  | nil =>
    obtain ⟨heq, _⟩ := List.cons_prefix_cons.mp hpre
    cases heq
    exact hlost
  | cons e pre' =>
    obtain ⟨_, hrest⟩ := List.cons_prefix_cons.mp hpre
    split at hrest
    next hret =>
      rw [World.complete_of_returns hret r hr]
      decide
    next => simp at hrest

/-- The first micro-batch of a run that gets to it. -/
lemma firstMicro_prefix (h : c.Begins P) (w : World) :
    ∃ w', w'.vote P .micro ∧ ran P c.toTrainCalls c.beginItems (c.started w) ++ [(w', .rpc .micro c.firstMicro)] <+:
      c.trace P w := by
  have hret := (TrainCalls.begins_iff (c := c.toTrainCalls) (c.started w)).mpr h
  obtain ⟨is, his⟩ := stepItems_eq c
  refine ⟨_, (TrainCalls.running_begins hret).vote .micro, ?_⟩
  rw [TrainCalls.trace, items_steps, ran_append, if_pos hret, his, List.cons_append, ran]
  exact (List.prefix_append_right_inj _).mpr (List.cons_prefix_cons.mpr ⟨rfl, List.nil_prefix⟩)

/-- Behind a run that completes all is mapped where `wake_up` took effect. -/
lemma foldl_complete (h : c.Completes P) (w : World) (m : ℕ → Mapped) {r : ℕ} (hr : r < P.tp)
    (hwake : (c.wakeUp r).effective) : (c.trace P w).foldl (c.effect P) m r = ⟨true, true⟩ := by
  obtain ⟨front, hlist⟩ : ∃ front, c.items =
      front ++ ([.rpc .kvRestore c.kvRestore] ++ ([.rpc .commit c.commit] ++ c.endItems)) := by
    refine ⟨c.beginItems ++ (c.stepItems ++ (c.checkpointItems ++ [.publish c.publish])), ?_⟩
    rw [items_steps, TrainCalls.tailItems]
    simp only [List.append_assoc, List.cons_append, List.nil_append]
  have hret : (doAll (acts P c.toTrainCalls c.items) (c.started w)).2 := by
    have hnone := (TrainCalls.completes_iff P c.toTrainCalls w).mpr h
    rw [TrainCalls.items, acts_flat, stagesOf_script, doStages_flat, Option.isNone_iff_eq_none]
    exact hnone
  have hcomplete : c.kvRestore.outcome r = .ok := by
    have hdone := h.2.2.2.2.1
    rw [Call.done, Bool.and_eq_true] at hdone
    exact of_decide_eq_true hdone.2 r hr
  rw [hlist, doAll_append_iff, doAll_append_iff] at hret
  rw [TrainCalls.trace, hlist, ran_append, if_pos hret.1, ran_append, if_pos hret.2.1, ran_singleton,
    List.foldl_append, List.foldl_append, List.foldl_cons, List.foldl_nil, foldl_mappings]
  · dsimp only [MappingCalls.effect]
    rw [if_pos ⟨hr, by rw [hcomplete]; decide⟩, WorkerCall.wakeUp, if_pos hwake]
  · intro e he
    have hmem := mem_of_ran he
    simp only [TrainCalls.endItems, List.singleton_append, List.mem_cons, List.not_mem_nil, or_false] at hmem
    obtain heq | heq | heq := hmem <;> rw [heq] <;> trivial

end

/-! ## The whole -/

theorem restores_iff (P : Pod) (c : MappingCalls) (w : World) (m : ℕ → Mapped) :
    Restores P c w m ↔ c.Safe P w m := by
  constructor
  · intro h hacc
    refine ⟨fun hbegins r hr hlost => ?_, fun hcompletes r hr hfails => ?_⟩
    · obtain ⟨w', hvote, hprefix⟩ := firstMicro_prefix hbegins w
      rw [← foldl_micro hprefix m hr]
      exact h.trains hacc _ w' _ hprefix hvote r hr hlost
    · exact h.failed r hr hfails ⟨hacc, (TrainCalls.completes_iff P c.toTrainCalls w).mpr hcompletes⟩
  · intro h
    have hcompletes (hs : c.succeeds P w) : c.Completes P := (TrainCalls.completes_iff P _ w).mp hs.2
    refine ⟨fun hacc pre w' d hprefix _ r hr hlost => ?_, fun hs r hr => ?_, fun r hr hfails hs => ?_⟩
    · rw [foldl_micro hprefix m hr]
      exact (h hacc).1 (micro_begins hprefix).1 r hr (firstMicro_ran hprefix hr hlost)
    · have hwake : (c.wakeUp r).effective := by
        refine (c.wakeUp r).effective_of_returns (Bool.eq_false_iff.mpr fun hraises => ?_)
        exact (h hs.1).2 (hcompletes hs) r hr (Or.inr hraises)
      have hafter : c.after P w m r = ⟨true, true⟩ := by
        rw [MappingCalls.after, if_pos hs.1, TrainCalls.recoveryTrace, ← foldl_complete (hcompletes hs) w m hr hwake]
        have hnone := hs.2
        generalize w.trainStages P c.toTrainCalls = res at hnone ⊢
        obtain ⟨w1, failed⟩ := res
        cases hnone
        rfl
      rw [hafter]
      exact ⟨rfl, rfl⟩
    · exact (h hs.1).2 (hcompletes hs) r hr hfails

lemma effective_of_true {raises : Bool} : raises = false → true := fun _ => rfl

lemma effective_of_raises : true = false → false := nofun

/-- A call that returns. -/
def workerOk : WorkerCall := ⟨false, true, effective_of_true⟩

/-- A call that raises without effect. -/
def workerRaises : WorkerCall := ⟨true, false, effective_of_raises⟩

lemma trainRun_micros : trainRun.firstStep.micros ≠ [] := List.cons_ne_nil _ _

/-- A run whose weights do not wake on rank 1. -/
def asleepRun : MappingCalls where
  toTrainCalls := trainRun
  sleep _ := workerOk
  wakeWeights r := if r = 1 then workerRaises else workerOk
  wakeUp _ := workerOk
  wakeUpRecover _ := workerOk
  micros_ne_nil := trainRun_micros

/-- The weights of rank 1 stay asleep: it runs the micro-batch without them, and the run succeeds. -/
theorem trains_asleep : ¬ ∀ (c : MappingCalls) (w : World) (m : ℕ → Mapped), (∀ r, m r = ⟨true, true⟩) →
    Restores twoRanks c w m := by
  intro h
  have hrestores := h asleepRun World.fresh (fun _ => ⟨true, true⟩) fun _ => rfl
  exact hrestores.failed 1 (by decide) (Or.inl ⟨rfl, rfl⟩) ⟨rfl, rfl⟩

end SuffixHybrid.Sft
