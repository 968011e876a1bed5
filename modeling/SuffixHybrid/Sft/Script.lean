import SuffixHybrid.Sft.Serving

/-!
# What a training run executes

The actions of a training run as data. The trace of a run is the list of those that it executes, each with
the state it begins in; what a run does beside the adapters of the model is a fold over its trace.
-/

namespace SuffixHybrid.Sft

/-! ## Items -/

/-- The actions of a training run. -/
inductive Item where
  | hub (d : HubCall)
  | check (ok : Bool)
  | rpc (op : Op) (d : Call)
  | unchecked (op : Op) (d : Call)
  | resetCache (d : HubCall)
  | writeMeta
  | publish (d : HubCall)

/-- What an item does. -/
def Item.action (P : Pod) (c : TrainCalls) : Item → Action
  | .hub d => hubA d
  | .check ok => checkA ok
  | .rpc op d => rpcA P op d
  | .unchecked op d => rpcU P op d
  | .resetCache d => resetCacheA d
  | .writeMeta => c.writeMeta
  | .publish d => hubA d

/-- The items of an optimizer step. -/
def StepCalls.items (id : String) (s : StepCalls) : List Item :=
  s.micros.map (.rpc .micro) ++ [.check s.finite, .rpc (.step id) s.step]

namespace TrainCalls
variable (c : TrainCalls)

def initializationItems : List Item := [.hub c.privateRepo, .rpc .eval c.parityBefore, .check c.agrees]

def trainingItems : List Item :=
  [.rpc .kvFree c.kvFree, .rpc .begin c.begin] ++ (c.firstStep :: c.steps).flatMap (StepCalls.items c.runId)

def checkpointItems : List Item := [.check c.mkdir, .rpc .save c.save, .writeMeta]

def servingItems : List Item :=
  [.rpc .kvRestore c.kvRestore, .rpc .commit c.commit, .resetCache c.resetCache, .rpc .eval c.parityAfter]

/-- The stages in front of the upload. -/
def trainingScript : List (Stage × List Item) :=
  [(.initialization, c.initializationItems), (.training, c.trainingItems), (.checkpoint, c.checkpointItems)]

/-- The items of all stages. -/
def script : List (Stage × List Item) :=
  c.trainingScript ++ [(.upload, [.publish c.publish]), (.serve, c.servingItems)]

/-- The items of the failure path. -/
def recoveryItems (stage : Stage) : List Item :=
  [.unchecked .kvRestore c.recoverKv, .unchecked .abort c.recoverAbort] ++
    if stage = .serve then [.unchecked .reset c.recoverReset] else []

end TrainCalls

/-- The actions of some items. -/
def acts (P : Pod) (c : TrainCalls) (is : List Item) : List Action := is.map (Item.action P c)

/-- The stages with the actions of their items. -/
def stagesOf (P : Pod) (c : TrainCalls) (ss : List (Stage × List Item)) : List (Stage × List Action) :=
  ss.map fun s => (s.1, acts P c s.2)

section
variable (P : Pod) (c : TrainCalls)

lemma acts_append (is js : List Item) : acts P c (is ++ js) = acts P c is ++ acts P c js := List.map_append

lemma acts_step (s : StepCalls) (id : String) : acts P c (s.items id) = s.actions P id := by
  rw [acts, StepCalls.items, List.map_append, List.map_map]
  rfl

lemma acts_training : acts P c c.trainingItems = c.training P := by
  have hsteps (ss : List StepCalls) :
      acts P c (ss.flatMap (StepCalls.items c.runId)) = ss.flatMap (StepCalls.actions P c.runId) := by
    rw [acts, List.map_flatMap]
    exact List.flatMap_congr fun s _ => acts_step P c s c.runId
  rw [TrainCalls.trainingItems, acts_append, hsteps]
  rfl

/-- The items are those of the stages. -/
lemma stagesOf_script : stagesOf P c c.script = c.stages P := by
  simp only [stagesOf, TrainCalls.script, TrainCalls.trainingScript, List.map_append, List.map_cons, List.map_nil,
    acts_training]
  rfl

/-- And those of the failure path. -/
lemma acts_recovery (stage : Stage) : acts P c (c.recoveryItems stage) = c.recovery P stage := by
  rw [TrainCalls.recoveryItems, TrainCalls.recovery]
  split <;> rfl

end

/-! ## Traces -/

/-- The items that are executed, each with the state it begins in. -/
def ran (P : Pod) (c : TrainCalls) : List Item → World → List (World × Item)
  | [], _ => []
  | i :: is, w => (w, i) :: if (i.action P c w).2 then ran P c is (i.action P c w).1 else []

/-- The items of all stages in a row. -/
def TrainCalls.items (c : TrainCalls) : List Item := c.script.flatMap Prod.snd

/-- The trace of the stages of a run. -/
def TrainCalls.trace (P : Pod) (c : TrainCalls) (w : World) : List (World × Item) := ran P c c.items (c.started w)

/-- The trace of the failure path. -/
def TrainCalls.recoveryTrace (P : Pod) (c : TrainCalls) (w : World) : List (World × Item) :=
  match w.trainStages P c with
  | (_, none) => []
  | (w', some stage) => ran P c (c.recoveryItems stage) w'

section
variable {P : Pod} {c : TrainCalls} {is js : List Item} {w : World}

lemma ran_append (is js : List Item) (w : World) : ran P c (is ++ js) w =
    ran P c is w ++ if (doAll (acts P c is) w).2 then ran P c js (doAll (acts P c is) w).1 else [] := by
  induction is generalizing w with
  | nil => rfl
  | cons i is ih =>
    rw [List.cons_append, ran, ran, acts, List.map_cons, doAll_cons]
    split
    · rw [ih, List.cons_append]
      rfl
    · simp

lemma ran_singleton (i : Item) (w : World) : ran P c [i] w = [(w, i)] := by
  rw [ran]
  split <;> rfl

lemma mem_of_ran {e : World × Item} (h : e ∈ ran P c is w) : e.2 ∈ is := by
  induction is generalizing w with
  | nil => cases h
  | cons i is ih =>
    rw [ran] at h
    rcases List.mem_cons.mp h with rfl | h
    · exact List.mem_cons_self
    · split at h
      · exact List.mem_cons_of_mem i (ih h)
      · cases h

/-- A property of the state and of what is folded over the trace, kept by the items that return. -/
lemma ran_returned {X : Type} {eff : X → World × Item → X} {J : World → X → Prop} {x : X}
    (h : ∀ i ∈ is, ∀ w x, J w x → (i.action P c w).2 → J (i.action P c w).1 (eff x (w, i))) (hx : J w x)
    (hret : (doAll (acts P c is) w).2) : J (doAll (acts P c is) w).1 ((ran P c is w).foldl eff x) := by
  induction is generalizing w x with
  | nil => exact hx
  | cons i is ih =>
    rw [acts, List.map_cons, doAll_cons] at hret ⊢
    rw [ran]
    split at hret
    next hi =>
      rw [if_pos hi, if_pos hi, List.foldl_cons]
      exact ih (fun j hj => h j (List.mem_cons_of_mem i hj)) (h i List.mem_cons_self w x hx hi) hret
    next => cases hret

/-- Stages in a row: the state behind them, and whether one of them raises. -/
lemma doStages_flat (ss : List (Stage × List Action)) (w : World) :
    doAll (ss.flatMap Prod.snd) w = ((doStages ss w).1, (doStages ss w).2.isNone) := by
  induction ss generalizing w with
  | nil => rfl
  | cons s ss ih =>
    rw [List.flatMap_cons, doAll_append, doStages]
    split
    · exact ih _
    · rfl

lemma acts_flat (ss : List (Stage × List Item)) :
    acts P c (ss.flatMap Prod.snd) = (stagesOf P c ss).flatMap Prod.snd := by
  rw [acts, List.map_flatMap, stagesOf, List.flatMap_map]
  rfl

end

/-! ## Prefixes of a trace -/

/-- A prefix that ends with what is not in the first part goes beyond it. -/
lemma exists_of_prefix {α : Type} {pre as bs : List α} {e : α} (h : pre ++ [e] <+: as ++ bs) (he : e ∉ as) :
    ∃ pre', pre = as ++ pre' ∧ pre' ++ [e] <+: bs := by
  induction as generalizing pre with
  | nil => exact ⟨pre, rfl, h⟩
  | cons a as ih =>
    cases pre with
    | nil =>
      obtain ⟨rfl, _⟩ := List.cons_prefix_cons.mp h
      exact absurd List.mem_cons_self he
    | cons p pre =>
      obtain ⟨rfl, hrest⟩ := List.cons_prefix_cons.mp h
      obtain ⟨pre', rfl, hpre'⟩ := ih hrest fun hmem => he (List.mem_cons_of_mem p hmem)
      exact ⟨pre', rfl, hpre'⟩

/-- A prefix that ends with what is not in the second part is one of the first part. -/
lemma prefix_of_notMem {α : Type} {pre as bs : List α} {e : α} (h : pre ++ [e] <+: as ++ bs) (he : e ∉ bs) :
    pre ++ [e] <+: as := by
  induction as generalizing pre with
  | nil => exact absurd (h.subset (List.mem_append_right _ List.mem_cons_self)) he
  | cons a as ih =>
    cases pre with
    | nil =>
      obtain ⟨rfl, _⟩ := List.cons_prefix_cons.mp h
      exact List.cons_prefix_cons.mpr ⟨rfl, List.nil_prefix⟩
    | cons p pre =>
      obtain ⟨rfl, hrest⟩ := List.cons_prefix_cons.mp h
      exact List.cons_prefix_cons.mpr ⟨rfl, ih hrest⟩

/-! ## The items of a run -/

/-- The item is not the upload. -/
def Item.Offline : Item → Prop
  | .publish _ => False
  | _ => True

/-- And it copies nothing to the adapters. -/
def Item.Quiet : Item → Prop
  | .rpc op _ => ¬ op.Copies
  | .unchecked op _ => ¬ op.Copies
  | .publish _ => False
  | _ => True

lemma Item.Quiet.offline {i : Item} (h : i.Quiet) : i.Offline := by
  cases i with
  | publish d => exact h
  | _ => trivial

namespace TrainCalls
variable (c : TrainCalls)

/-- The items in front of the upload. -/
def trainedItems : List Item := c.trainingScript.flatMap Prod.snd

lemma items_eq : c.items = c.trainedItems ++ .publish c.publish :: c.servingItems := by
  simp [items, script, trainedItems]

lemma quiet_trained : ∀ i ∈ c.trainedItems, i.Quiet := by
  intro i hi
  obtain ⟨s, hs, hi⟩ := List.mem_flatMap.mp hi
  simp only [trainingScript, List.mem_cons, List.not_mem_nil, or_false] at hs
  obtain rfl | rfl | rfl := hs
  · simp only [initializationItems, List.mem_cons, List.not_mem_nil, or_false] at hi
    obtain rfl | rfl | rfl := hi
    · trivial
    · exact id
    · trivial
  · obtain hi | hi := List.mem_append.mp hi
    · simp only [List.mem_cons, List.not_mem_nil, or_false] at hi
      obtain rfl | rfl := hi
      · exact id
      · exact id
    · obtain ⟨st, _, hi⟩ := List.mem_flatMap.mp hi
      obtain hi | hi := List.mem_append.mp hi
      · obtain ⟨d, _, rfl⟩ := List.mem_map.mp hi
        exact id
      · simp only [List.mem_cons, List.not_mem_nil, or_false] at hi
        obtain rfl | rfl := hi
        · trivial
        · exact id
  · simp only [checkpointItems, List.mem_cons, List.not_mem_nil, or_false] at hi
    obtain rfl | rfl | rfl := hi
    · trivial
    · exact id
    · trivial

lemma offline_serving : ∀ i ∈ c.servingItems, i.Offline := by
  intro i hi
  simp only [servingItems, List.mem_cons, List.not_mem_nil, or_false] at hi
  obtain rfl | rfl | rfl | rfl := hi <;> trivial

lemma offline_recovery (stage : Stage) : ∀ i ∈ c.recoveryItems stage, i.Offline := by
  intro i hi
  rw [recoveryItems] at hi
  split at hi <;> simp only [List.mem_append, List.mem_cons, List.not_mem_nil, or_false] at hi
  · obtain (rfl | rfl) | rfl := hi <;> trivial
  · obtain rfl | rfl := hi <;> trivial

/-- Only a run that is being served is reset. -/
lemma quiet_recovery {stage : Stage} (h : stage ≠ .serve) : ∀ i ∈ c.recoveryItems stage, i.Quiet := by
  intro i hi
  rw [recoveryItems, if_neg h] at hi
  simp only [List.append_nil, List.mem_cons, List.not_mem_nil, or_false] at hi
  obtain rfl | rfl := hi
  · exact id
  · exact id

end TrainCalls

/-! ## How far the stages get -/

section
variable {P : Pod} {c : TrainCalls} {w : World}

/-- The items in front of the upload, from the start of the run. -/
lemma doAll_trained (P : Pod) (c : TrainCalls) (w : World) :
    doAll (acts P c c.trainedItems) w =
      ((doStages (stagesOf P c c.trainingScript) w).1, (doStages (stagesOf P c c.trainingScript) w).2.isNone) := by
  rw [TrainCalls.trainedItems, acts_flat, doStages_flat]

lemma trainStages_eq (P : Pod) (c : TrainCalls) (w : World) : w.trainStages P c =
    doStages (stagesOf P c c.trainingScript ++ [(.upload, [hubA c.publish]), (.serve, c.serving P)])
      (c.started w) := by
  rw [World.trainStages, ← stagesOf_script]
  rfl

/-- A run that does not get to its upload. -/
lemma stage_early (h : (doStages (stagesOf P c c.trainingScript) (c.started w)).2 ≠ none) :
    (∃ stage, (w.trainStages P c).2 = some stage ∧ stage ≠ .serve) ∧
      c.trace P w = ran P c c.trainedItems (c.started w) := by
  refine ⟨?_, ?_⟩
  · rw [trainStages_eq, doStages_append, if_neg h]
    obtain ⟨stage, hstage⟩ := Option.ne_none_iff_exists'.mp h
    refine ⟨stage, hstage, fun heq => ?_⟩
    obtain ⟨s, hs, hname⟩ := mem_of_doStages hstage
    rw [stagesOf, TrainCalls.trainingScript] at hs
    simp only [List.map_cons, List.map_nil, List.mem_cons, List.not_mem_nil, or_false] at hs
    obtain rfl | rfl | rfl := hs <;> simp [← hname] at heq
  · rw [TrainCalls.trace, TrainCalls.items_eq, ran_append, doAll_trained, if_neg, List.append_nil]
    rwa [Option.isNone_iff_eq_none]

/-- The state in which the upload begins. -/
def TrainCalls.trainedWorld (P : Pod) (c : TrainCalls) (w : World) : World :=
  (doStages (stagesOf P c c.trainingScript) (c.started w)).1

/-- The state in which the run begins to be served. -/
def TrainCalls.publishedWorld (P : Pod) (c : TrainCalls) (w : World) : World :=
  (c.trainedWorld P w).serve c.publish.served

/-- A run whose upload raises. -/
lemma stage_upload (h : (doStages (stagesOf P c c.trainingScript) (c.started w)).2 = none)
    (hpublish : ¬ c.publish.ok) : (w.trainStages P c).2 = some .upload ∧ c.trace P w =
      ran P c c.trainedItems (c.started w) ++ [(c.trainedWorld P w, .publish c.publish)] := by
  have hraises (w' : World) : (hubA c.publish w').2 = false := Bool.eq_false_iff.mpr hpublish
  refine ⟨?_, ?_⟩
  · rw [trainStages_eq, doStages_append, if_pos h, doStages, doAll_cons, hraises, if_neg Bool.false_ne_true]
    rfl
  · rw [TrainCalls.trace, TrainCalls.items_eq, ran_append, doAll_trained, h]
    rw [Option.isNone_none, if_pos rfl, ran, Item.action, hraises, if_neg Bool.false_ne_true]
    rfl

/-- A run that is uploaded. -/
lemma stage_serve (h : (doStages (stagesOf P c c.trainingScript) (c.started w)).2 = none)
    (hpublish : c.publish.ok) : (w.trainStages P c).2 =
      (if (doAll (acts P c c.servingItems) (c.publishedWorld P w)).2 then none else some .serve) ∧
      c.trace P w = ran P c c.trainedItems (c.started w) ++
        (c.trainedWorld P w, .publish c.publish) :: ran P c c.servingItems (c.publishedWorld P w) := by
  have hreturns (w' : World) : (hubA c.publish w').2 = true := hpublish
  refine ⟨?_, ?_⟩
  · rw [trainStages_eq, doStages_append, if_pos h, doStages, doAll_cons, hreturns, if_pos rfl, doAll_nil,
      if_pos rfl, doStages]
    split
    next hret => exact (if_pos hret).symm
    next hret => exact (if_neg hret).symm
  · rw [TrainCalls.trace, TrainCalls.items_eq, ran_append, doAll_trained, h]
    rw [Option.isNone_none, if_pos rfl, ran, Item.action, hreturns, if_pos rfl]
    rfl

end

end SuffixHybrid.Sft
