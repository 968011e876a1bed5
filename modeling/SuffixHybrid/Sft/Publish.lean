import SuffixHybrid.Sft.Script

/-!
# What a training run publishes

The adapters with their values, the shards of the runs and the two pointers `latest.json`. `Hub.publish`
makes a commit on the Hub, where there is a repo, and then replaces the local pointer; `State.train` has a
commit only when the whole of it returns. A commit whose pointer is not written is on the Hub, and the error
of the run denies it (`published_iff`).
-/

namespace SuffixHybrid.Sft
variable {V : Type}

/-! ## The state -/

/-- A working copy. -/
structure Working (V : Type) where
  steps : ℕ
  params : Tensor → V

/-- What a rank holds, with the shards it has saved. -/
structure Held (V : Type) where
  live : Tensor → V
  run : Option (Working V)
  shard : String → Option (Tensor → V)

/-- The ranks, `latest.json` on the Hub and on the disk (no pointer, the base model or a run), and whether
the run has a commit. -/
structure Site (V : Type) where
  ranks : ℕ → Held V
  hub : Option (Option String)
  latest : Option (Option String)
  commit : Bool

/-- The pod, whether there is a repo, what B is reset to, and the optimizer on each rank by its step. -/
structure Setup (V : Type) where
  pod : Pod
  repo : Bool
  zero : V
  adam : ℕ → ℕ → (Tensor → V) → Tensor → V

/-- The calls of a run with what becomes of its upload: `create_commit` takes effect, and it returns; the
local pointer is replaced. -/
structure UploadCalls (S : Setup V) extends TrainCalls where
  applied : Bool
  created : Bool
  wrote : Bool
  applied_of_created : created → applied
  publish_ok : publish.ok = ((!S.repo || created) && wrote)

/-! ## What the items do -/

/-- Copy some tensors. -/
def put (live values : Tensor → V) (ts : List Tensor) : Tensor → V :=
  ts.foldl (fun live t => Function.update live t (values t)) live

namespace Setup
variable (S : Setup V)

/-- The tensors that an op copies. -/
def targets (k : Held V) : Op → List Tensor
  | .commit => if k.run.isSome then S.pod.spans else []
  | .reset => S.pod.zeroed
  | _ => []

/-- The values that an op copies. -/
def values (k : Held V) : Op → Tensor → V
  | .commit => (k.run.map Working.params).getD k.live
  | .reset => fun _ => S.zero
  | _ => k.live

/-- The run behind an op that does not fail. -/
def runAfter (r : ℕ) (k : Held V) : Op → Option (Working V)
  | .begin => some ⟨0, k.live⟩
  | .step _ => k.run.map fun run => ⟨run.steps + 1, S.adam run.steps r run.params⟩
  | .commit => none
  | .abort => none
  | _ => k.run

/-- `save`: the working copy, or the adapters of a rank that has none. -/
def shardAfter (id : String) (k : Held V) : Op → String → Option (Tensor → V)
  | .save => Function.update k.shard id (some ((k.run.map Working.params).getD k.live))
  | _ => k.shard

/-- An op on a rank, for the run with this id. -/
def exec (id : String) (op : Op) (r : ℕ) (k : Held V) : Outcome → Held V
  | .ok => ⟨put k.live (S.values k op) (S.targets k op), S.runAfter r k op, shardAfter id k op⟩
  | .error copied => { k with
      live := put k.live (S.values k op) ((S.targets k op).take copied)
      run := if op.keepsRun then k.run else none }
  | .lost => k

/-- An op on all ranks: a rank without a run votes against it. -/
def rpc (id : String) (w : World) (op : Op) (d : Call) (x : Site V) : Site V :=
  { x with ranks := fun r =>
      if r < S.pod.tp then
        if w.vote S.pod op then S.exec id op r (x.ranks r) (d.outcome r)
        else if d.outcome r = .lost then x.ranks r else { x.ranks r with run := none }
      else x.ranks r }

/-- `Hub.publish`. -/
def publish (c : UploadCalls S) (x : Site V) : Site V :=
  { x with
    hub := if S.repo && c.applied then some (some c.runId) else x.hub
    latest := if c.publish.ok then some (some c.runId) else x.latest
    commit := S.repo && c.publish.ok }

/-- What an item does to the site. -/
def effect (c : UploadCalls S) (x : Site V) : World × Item → Site V
  | (w, .rpc op d) => S.rpc c.runId w op d x
  | (w, .unchecked op d) => S.rpc c.runId w op d x
  | (_, .publish _) => S.publish c x
  | _ => x

end Setup

namespace UploadCalls
variable {S : Setup V} (c : UploadCalls S)

/-- The site behind the stages, as far as they get. -/
def staged (w : World) (x : Site V) : Site V := (c.trace S.pod w).foldl (S.effect c) { x with commit := false }

/-- The site behind the call. -/
def after (w : World) (x : Site V) : Site V :=
  if c.accepted w then (c.recoveryTrace S.pod w).foldl (S.effect c) (c.staged w x) else x

/-- The stage that raises. -/
def failedIn (w : World) : Option Stage := (w.trainStages S.pod c.toTrainCalls).2

/-- The call raises the detail of its failure path. -/
def reports (w : World) : Prop :=
  c.accepted w ∧ c.failedIn w ≠ none ∧ ¬ c.recoverKv.raises ∧ ¬ c.recoverAbort.raises ∧
    (c.failedIn w = some .serve → ¬ c.recoverReset.raises)

/-- The field `checkpoint_published` of the detail. -/
def checkpointPublished (w : World) (x : Site V) : Bool := (c.after w x).commit

end UploadCalls

/-! ## What a run is to do -/

/-- The stages in front of the upload return. -/
def UploadCalls.uploads {S : Setup V} (c : UploadCalls S) (w : World) : Prop :=
  (doStages (stagesOf S.pod c.toTrainCalls c.trainingScript) (c.started w)).2 = none

/-- A commit is made on the Hub, `Hub.publish` raises nevertheless, and the detail of the run is sent. -/
def UploadCalls.Orphans {S : Setup V} (c : UploadCalls S) (w : World) : Prop :=
  c.accepted w ∧ c.uploads w ∧ S.repo ∧ c.applied ∧ ¬ c.publish.ok ∧ ¬ c.recoverKv.raises ∧ ¬ c.recoverAbort.raises

/-- Only a published run is served. A run that fails before it is served has changed nothing; `commit` is
called when the pointers name the run; a run that succeeds is named by the pointers and the status, and its
shards are served; and the error says whether the pointer of the Hub names the run. -/
structure Published {S : Setup V} (c : UploadCalls S) (w : World) (x : Site V) : Prop where
  kept : (c.accepted w → ∃ stage, c.failedIn w = some stage ∧ stage ≠ .serve) →
    (∀ r, ((c.after w x).ranks r).live = (x.ranks r).live) ∧
      (w.train S.pod c.toTrainCalls).status.checkpoint = w.status.checkpoint ∧ (c.after w x).latest = x.latest
  committed : c.accepted w → ∀ pre w' d, pre ++ [(w', .rpc .commit d)] <+: c.trace S.pod w →
    (pre.foldl (S.effect c) { x with commit := false }).latest = some (some c.runId) ∧
      (S.repo → (pre.foldl (S.effect c) { x with commit := false }).hub = some (some c.runId))
  served : c.accepted w → c.failedIn w = none →
    (w.train S.pod c.toTrainCalls).status.checkpoint = some (some c.runId) ∧
      (c.after w x).latest = some (some c.runId) ∧ (S.repo → (c.after w x).hub = some (some c.runId)) ∧
      ∀ r < S.pod.tp, ∃ shard, ((c.after w x).ranks r).shard c.runId = some shard ∧
        ∀ t ∈ S.pod.tensors, ((c.after w x).ranks r).live t = shard t
  reported : c.reports w → (c.checkpointPublished w x ↔ (c.after w x).hub = some (some c.runId))

/-! ## One item -/

section
variable {S : Setup V} {c : UploadCalls S} {x : Site V} {w : World} {i : Item} {is : List Item}

lemma targets_eq_nil {op : Op} (h : ¬ op.Copies) (k : Held V) : S.targets k op = [] := by
  cases op <;> first | rfl | exact absurd trivial h

lemma exec_live {op : Op} (h : ¬ op.Copies) (id : String) (r : ℕ) (k : Held V) (o : Outcome) :
    (S.exec id op r k o).live = k.live := by
  cases o with
  | ok => rw [Setup.exec, targets_eq_nil h, put, List.foldl_nil]
  | error copied => rw [Setup.exec, targets_eq_nil h, List.take_nil, put, List.foldl_nil]
  | lost => rfl

lemma rpc_live {op : Op} (h : ¬ op.Copies) (id : String) (w : World) (d : Call) (x : Site V) (r : ℕ) :
    ((S.rpc id w op d x).ranks r).live = (x.ranks r).live := by
  dsimp only [Setup.rpc]
  split
  · split
    · exact exec_live h id r _ _
    · split <;> rfl
  · rfl

lemma effect_live (h : i.Quiet) (w : World) (x : Site V) (r : ℕ) :
    ((S.effect c x (w, i)).ranks r).live = (x.ranks r).live := by
  cases i with
  | rpc op d => exact rpc_live h _ w d x r
  | unchecked op d => exact rpc_live h _ w d x r
  | publish d => exact h.elim
  | _ => rfl

lemma effect_files (h : i.Offline) (w : World) (x : Site V) : (S.effect c x (w, i)).hub = x.hub ∧
    (S.effect c x (w, i)).latest = x.latest ∧ (S.effect c x (w, i)).commit = x.commit := by
  cases i with
  | publish d => exact h.elim
  | _ => exact ⟨rfl, rfl, rfl⟩

lemma foldl_live {es : List (World × Item)} (h : ∀ e ∈ es, e.2.Quiet) (x : Site V) (r : ℕ) :
    ((es.foldl (S.effect c) x).ranks r).live = (x.ranks r).live := by
  induction es generalizing x with
  | nil => rfl
  | cons e es ih =>
    rw [List.foldl_cons, ih fun e' he' => h e' (List.mem_cons_of_mem e he')]
    exact effect_live (h e List.mem_cons_self) e.1 x r

lemma foldl_files {es : List (World × Item)} (h : ∀ e ∈ es, e.2.Offline) (x : Site V) :
    (es.foldl (S.effect c) x).hub = x.hub ∧ (es.foldl (S.effect c) x).latest = x.latest ∧
      (es.foldl (S.effect c) x).commit = x.commit := by
  induction es generalizing x with
  | nil => exact ⟨rfl, rfl, rfl⟩
  | cons e es ih =>
    obtain ⟨hhub, hlatest, hcommit⟩ := effect_files (c := c) (h e List.mem_cons_self) e.1 x
    obtain ⟨hhub', hlatest', hcommit'⟩ :=
      ih (fun e' he' => h e' (List.mem_cons_of_mem e he')) (S.effect c x e)
    exact ⟨hhub'.trans hhub, hlatest'.trans hlatest, hcommit'.trans hcommit⟩

lemma ran_live (h : ∀ i ∈ is, i.Quiet) (w : World) (x : Site V) (r : ℕ) :
    (((ran S.pod c.toTrainCalls is w).foldl (S.effect c) x).ranks r).live = (x.ranks r).live :=
  foldl_live (fun e he => h e.2 (mem_of_ran he)) x r

lemma ran_files (h : ∀ i ∈ is, i.Offline) (w : World) (x : Site V) :
    ((ran S.pod c.toTrainCalls is w).foldl (S.effect c) x).hub = x.hub ∧
      ((ran S.pod c.toTrainCalls is w).foldl (S.effect c) x).latest = x.latest ∧
      ((ran S.pod c.toTrainCalls is w).foldl (S.effect c) x).commit = x.commit :=
  foldl_files (fun e he => h e.2 (mem_of_ran he)) x

end

/-! ## Working copies and shards -/

/-- Every rank has a run. -/
def Site.Running (P : Pod) (x : Site V) : Prop := ∀ r < P.tp, (x.ranks r).run.isSome

/-- Every rank has a run, and has saved its values under this id. -/
def Site.Saved (P : Pod) (id : String) (x : Site V) : Prop :=
  ∀ r < P.tp, ∃ run, (x.ranks r).run = some run ∧ (x.ranks r).shard id = some run.params

/-- What every rank serves is what it has saved. -/
def Site.Serves (P : Pod) (id : String) (x : Site V) : Prop :=
  ∀ r < P.tp, ∃ shard, (x.ranks r).shard id = some shard ∧ ∀ t ∈ P.tensors, (x.ranks r).live t = shard t

section
variable {S : Setup V} {c : UploadCalls S} {x : Site V} {w : World} {is js : List Item} {op : Op} {d : Call}

/-- Where the items return, they lead from one property of the site to another. -/
def Leads (c : UploadCalls S) (I : Site V → Prop) (is : List Item) (J : Site V → Prop) : Prop :=
  ∀ w x, I x → (doAll (acts S.pod c.toTrainCalls is) w).2 →
    J ((ran S.pod c.toTrainCalls is w).foldl (S.effect c) x)

section
variable {I J K : Site V → Prop} {i : Item}

lemma Leads.append (h : Leads c I is J) (h' : Leads c J js K) : Leads c I (is ++ js) K := by
  intro w x hx hret
  rw [acts_append] at hret
  obtain ⟨his, heq⟩ := doAll_append_returned hret
  rw [heq] at hret
  rw [ran_append, if_pos his, List.foldl_append]
  exact h' _ _ (h w x hx his) hret

lemma Leads.single (h : ∀ w x, I x → (i.action S.pod c.toTrainCalls w).2 → J (S.effect c x (w, i))) :
    Leads c I [i] J := by
  intro w x hx hret
  rw [acts, List.map_singleton, doAll_cons] at hret
  split at hret
  next hi =>
    rw [ran, if_pos hi, ran]
    exact h w x hx hi
  next => cases hret

lemma Leads.each (h : ∀ i ∈ is, ∀ w x, I x → (i.action S.pod c.toTrainCalls w).2 → I (S.effect c x (w, i))) :
    Leads c I is I :=
  fun _ _ hx hret => ran_returned (J := fun _ x => I x) h hx hret

end

/-- An op that returns has run to its end on every rank. -/
lemma rpc_returns (h : w.returns S.pod op d) (id : String) (x : Site V) {r : ℕ} (hr : r < S.pod.tp) :
    (S.rpc id w op d x).ranks r = S.exec id op r (x.ranks r) .ok := by
  dsimp only [Setup.rpc]
  rw [if_pos hr, if_pos (World.vote_of_returns h), World.complete_of_returns h r hr]

lemma leads_begin : Leads c (fun _ => True) [.rpc .begin d] (Site.Running S.pod) := by
  refine Leads.single fun w x _ hret r hr => ?_
  rw [Setup.effect, rpc_returns hret _ x hr]
  rfl

/-- An optimizer step keeps the runs. -/
lemma leads_step (s : StepCalls) : Leads c (Site.Running S.pod) (s.items c.runId) (Site.Running S.pod) := by
  refine Leads.each fun i hi w x hx hret r hr => ?_
  have hrun := hx r hr
  obtain hi | hi := List.mem_append.mp hi
  · obtain ⟨d, _, rfl⟩ := List.mem_map.mp hi
    rw [Setup.effect, rpc_returns hret _ x hr]
    exact hrun
  · simp only [List.mem_cons, List.not_mem_nil, or_false] at hi
    obtain rfl | rfl := hi
    · exact hrun
    · rw [Setup.effect, rpc_returns hret _ x hr]
      dsimp only [Setup.exec, Setup.runAfter]
      rw [Option.isSome_map]
      exact hrun

lemma leads_steps (ss : List StepCalls) :
    Leads c (Site.Running S.pod) (ss.flatMap (StepCalls.items c.runId)) (Site.Running S.pod) := by
  induction ss with
  | nil => exact fun _ _ hx _ => hx
  | cons s ss ih => exact (leads_step s).append ih

lemma leads_save : Leads c (Site.Running S.pod) [.rpc .save d] (Site.Saved S.pod c.runId) := by
  refine Leads.single fun w x hx hret r hr => ?_
  obtain ⟨run, hrun⟩ := Option.isSome_iff_exists.mp (hx r hr)
  rw [Setup.effect, rpc_returns hret _ x hr]
  refine ⟨run, hrun, ?_⟩
  dsimp only [Setup.exec, Setup.shardAfter]
  rw [Function.update_self, hrun]
  rfl

lemma leads_commit : Leads c (Site.Saved S.pod c.runId) [.rpc .commit d] (Site.Serves S.pod c.runId) := by
  refine Leads.single fun w x hx hret r hr => ?_
  obtain ⟨run, hrun, hshard⟩ := hx r hr
  rw [Setup.effect, rpc_returns hret _ x hr]
  refine ⟨run.params, hshard, fun t ht => ?_⟩
  dsimp only [Setup.exec, Setup.targets, Setup.values]
  rw [hrun, Option.isSome_some, if_pos rfl, put, foldl_update, if_pos (Pod.mem_spans_iff.mpr ht)]
  rfl

/-- An op that leaves runs, shards and adapters alone. -/
lemma leads_idle {I : Site V → Prop} (h : ∀ (r : ℕ) (k : Held V), S.exec c.runId op r k .ok = k)
    (hI : ∀ x y : Site V, (∀ r < S.pod.tp, x.ranks r = y.ranks r) → I x → I y) : Leads c I [.rpc op d] I := by
  refine Leads.single fun w x hx hret => hI x _ (fun r hr => ?_) hx
  rw [Setup.effect, rpc_returns hret _ x hr, h]

/-- Behind the stages in front of the upload every rank has saved its run. -/
lemma leads_trained : Leads c (fun _ => True) c.trainedItems (Site.Saved S.pod c.runId) := by
  have hlist : c.trainedItems = (c.initializationItems ++ [.rpc .kvFree c.kvFree]) ++
      ([.rpc .begin c.begin] ++ ((c.firstStep :: c.steps).flatMap (StepCalls.items c.runId) ++
        ([.check c.mkdir] ++ ([.rpc .save c.save] ++ [.writeMeta])))) := by
    simp [TrainCalls.trainedItems, TrainCalls.trainingScript, TrainCalls.trainingItems, TrainCalls.checkpointItems]
  rw [hlist]
  refine Leads.append (J := fun _ => True) (fun _ _ _ _ => trivial) ?_
  refine leads_begin.append ((leads_steps _).append ?_)
  refine (Leads.single fun _ _ hx _ => hx).append (leads_save.append (Leads.single fun _ _ hx _ => hx))

/-- The stage that serves the run. -/
lemma leads_serving : Leads c (Site.Saved S.pod c.runId) c.servingItems (Site.Serves S.pod c.runId) := by
  have hlist : c.servingItems = [.rpc .kvRestore c.kvRestore] ++ ([.rpc .commit c.commit] ++
      ([.resetCache c.resetCache] ++ [.rpc .eval c.parityAfter])) := rfl
  rw [hlist]
  refine (leads_idle (fun _ _ => rfl) ?_).append (leads_commit.append
    ((Leads.single fun _ _ hx _ => hx).append (leads_idle (fun _ _ => rfl) ?_)))
  · intro x y heq hx r hr
    rw [← heq r hr]
    exact hx r hr
  · intro x y heq hx r hr
    rw [← heq r hr]
    exact hx r hr

end

end SuffixHybrid.Sft
