import SuffixHybrid.Sft.State

/-!
# What the actions do

No action changes the status, and only `load`, `reset` and `commit` change the adapters: on a rank where
they run to their end every tensor is copied, where they stop before the first copy none is. A training run
whose stages before the last one return has left the adapters alone, and on every rank it has a working copy
that was made from them and holds the values of the run (`trainStages_cases`).
-/

namespace SuffixHybrid.Sft

/-! ## Copies -/

@[simp] lemma copy_nil (live : Tensor → Source) : copy live [] = live := rfl

/-- The places that are written get their values, the others keep them. -/
lemma foldl_update {α β : Type} [DecidableEq α] (live values : α → β) (ts : List α) (t : α) :
    ts.foldl (fun live t => Function.update live t (values t)) live t
      = if t ∈ ts then values t else live t := by
  induction ts generalizing live with
  | nil => rfl
  | cons s ts ih =>
    rw [List.foldl_cons, ih]
    by_cases hmem : t ∈ ts
    · rw [if_pos hmem, if_pos (List.mem_cons_of_mem s hmem)]
    · rw [if_neg hmem]
      by_cases heq : t = s
      · rw [heq, Function.update_self, if_pos List.mem_cons_self]
      · rw [Function.update_of_ne heq, if_neg fun h => (List.mem_cons.mp h).elim heq hmem]

lemma copy_map (live values : Tensor → Source) (ts : List Tensor) (t : Tensor) :
    copy live (ts.map fun t => (t, values t)) t = if t ∈ ts then values t else live t := by
  rw [copy, List.foldl_map]
  convert foldl_update live values ts t

namespace Pod
variable {P : Pod}

lemma mem_spans_iff {t : Tensor} : t ∈ P.spans ↔ t ∈ P.tensors := by
  simp only [spans, List.flatMap_cons, List.flatMap_nil, List.append_nil, List.mem_append, List.mem_filter]
  cases decide ((P.kinds[t.1]?.bind Kind.replicatedFactor) = some t.2) <;> simp

end Pod

variable {P : Pod}

/-! ## Calls -/

/-- Every rank runs the op to its end. -/
def Call.Complete (P : Pod) (c : Call) : Prop := ∀ r < P.tp, c.outcome r = .ok

/-- No rank gets to a copy. -/
def Call.Void (P : Pod) (c : Call) : Prop := ∀ r < P.tp, c.outcome r = .lost ∨ c.outcome r = .error 0

/-- The ops that copy nothing. -/
def Op.Copies : Op → Prop
  | .load _ => True
  | .reset => True
  | .commit => True
  | _ => False

lemma Op.copies_eq_nil {op : Op} (h : ¬ op.Copies) (k : Rank) : op.copies P k = [] := by
  cases op <;> first | rfl | exact absurd trivial h

namespace World
variable {w : World} {op : Op} {c : Call}

@[simp] lemma status_serve (w : World) (b : Bool) : (w.serve b).status = w.status := by cases b <;> rfl
@[simp] lemma ranks_serve (w : World) (b : Bool) : (w.serve b).ranks = w.ranks := by cases b <;> rfl
@[simp] lemma records_serve (w : World) (b : Bool) : (w.serve b).records = w.records := by cases b <;> rfl
@[simp] lemma live_serve (w : World) (b : Bool) : (w.serve b).live = w.live := by cases b <;> rfl
@[simp] lemma start_serve (w : World) (b : Bool) : (w.serve b).start = w.start := by cases b <;> rfl
@[simp] lemma status_rpc (w : World) : (w.rpc P op c).status = w.status := status_serve _ _
@[simp] lemma records_rpc (w : World) : (w.rpc P op c).records = w.records := records_serve _ _
@[simp] lemma ranks_rpc (w : World) : (w.rpc P op c).ranks = w.rpcRanks P op c := ranks_serve _ _

lemma live_rpc (w : World) (r : ℕ) : (w.rpc P op c).live r = (w.rpcRanks P op c r).live := by
  rw [live, ranks_rpc]

/-- A rank on which the op has run to its end. -/
lemma rpcRanks_ok {r : ℕ} (hr : r < P.tp) (hvote : w.vote P op) (hok : c.outcome r = .ok) :
    w.rpcRanks P op c r = ⟨copy (w.live r) (op.copies P (w.ranks r)), op.runAfter (w.ranks r)⟩ := by
  rw [rpcRanks, if_pos hr, if_pos hvote, hok]
  rfl

/-- An op that copies nothing, or that no rank gets to copy in, leaves the adapters alone. -/
lemma live_rpc_of_void (h : ¬ op.Copies ∨ c.Void P) : (w.rpc P op c).live = w.live := by
  funext r
  rw [live_rpc, rpcRanks]
  split
  next hr =>
    split
    next =>
      rcases h with h | h
      · cases hc : c.outcome r with
        | ok => simp only [Rank.exec, Op.copies_eq_nil h, copy_nil, live]
        | error copied => simp only [Rank.exec, Op.copies_eq_nil h, List.take_nil, copy_nil, live]
        | lost => rfl
      · rcases h r hr with hc | hc
        · rw [hc]
          rfl
        · rw [hc]
          rfl
    next => split <;> rfl
  next => rfl

lemma vote_of_returns (h : w.returns P op c) : w.vote P op := by
  rw [returns, Bool.and_eq_true, good, Bool.and_eq_true] at h
  exact h.2.1

lemma complete_of_returns (h : w.returns P op c) : c.Complete P := by
  rw [returns, Bool.and_eq_true, good, Bool.and_eq_true, List.all_eq_true] at h
  exact fun r hr => of_decide_eq_true (h.2.2 r (List.mem_range.mpr hr))

lemma rpcRanks_returns (h : w.returns P op c) {r : ℕ} (hr : r < P.tp) :
    w.rpcRanks P op c r = ⟨copy (w.live r) (op.copies P (w.ranks r)), op.runAfter (w.ranks r)⟩ :=
  rpcRanks_ok hr (vote_of_returns h) (complete_of_returns h r hr)

/-! ## What the cache holds -/

lemma mem_cache_serve {b : Bool} {e : ℕ → Tensor → Source} (h : e ∈ (w.serve b).cache) :
    e ∈ w.cache ∨ e = w.live := by
  cases b with
  | false => exact Or.inl h
  | true => exact (List.mem_cons.mp h).symm

/-- What is served behind a call is computed under the adapters that it leaves. -/
lemma mem_cache_rpc {e : ℕ → Tensor → Source} (h : e ∈ (w.rpc P op c).cache) :
    e ∈ w.cache ∨ e = (w.rpc P op c).live := by
  refine (mem_cache_serve h).imp_right fun heq => heq.trans ?_
  rw [rpc, live_serve]

/-! ## What the ranks serve -/

/-- Every rank serves the shards of a run. -/
def Serves (P : Pod) (w : World) (id : String) : Prop := ∀ r < P.tp, ∀ t ∈ P.tensors, w.live r t = .run id

/-- The deltas of all ranks are zero. -/
def ServesBase (P : Pod) (w : World) : Prop := ∀ r < P.tp, ∀ t ∈ P.zeroed, w.live r t = .initial

instance (P : Pod) (w : World) (id : String) : Decidable (w.Serves P id) :=
  inferInstanceAs (Decidable (∀ r < P.tp, ∀ t ∈ P.tensors, w.live r t = .run id))

instance (P : Pod) (w : World) : Decidable (w.ServesBase P) :=
  inferInstanceAs (Decidable (∀ r < P.tp, ∀ t ∈ P.zeroed, w.live r t = .initial))

lemma serves_load {id : String} (h : c.Complete P) : (w.rpc P (.load id) c).Serves P id := by
  intro r hr t ht
  rw [live_rpc, rpcRanks_ok hr rfl (h r hr)]
  exact (copy_map _ _ _ t).trans (if_pos ht)

lemma servesBase_reset (h : c.Complete P) : (w.rpc P .reset c).ServesBase P := by
  intro r hr t ht
  rw [live_rpc, rpcRanks_ok hr rfl (h r hr)]
  exact (copy_map _ _ _ t).trans (if_pos ht)

/-- Every rank has a run, made from these adapters. -/
def Begun (P : Pod) (start : ℕ → Tensor → Source) (w : World) : Prop :=
  ∀ r < P.tp, ∃ run, (w.ranks r).run = some run ∧ run.start = start r

/-- And its values are those of a run. -/
def Trained (P : Pod) (start : ℕ → Tensor → Source) (id : String) (w : World) : Prop :=
  ∀ r < P.tp, ∃ run, (w.ranks r).run = some run ∧ run.start = start r ∧ ∀ t, run.params t = .run id

lemma Trained.begun {start : ℕ → Tensor → Source} {id : String} (h : Trained P start id w) : Begun P start w := by
  intro r hr
  obtain ⟨run, hrun, hstart, _⟩ := h r hr
  exact ⟨run, hrun, hstart⟩

lemma serves_commit {start : ℕ → Tensor → Source} {id : String} (h : Trained P start id w)
    (hret : w.returns P .commit c) : (w.rpc P .commit c).Serves P id := by
  intro r hr t ht
  obtain ⟨run, hrun, _, hparams⟩ := h r hr
  rw [live_rpc, rpcRanks_returns hret hr]
  simp only [Op.copies, hrun, copy_map, if_pos (Pod.mem_spans_iff.mpr ht), hparams]

end World

/-! ## Lists of actions -/

section
variable {α : Type} {f : World → α} {I : World → Prop} {as : List Action} {w : World}

@[simp] lemma doAll_nil (w : World) : doAll [] w = (w, true) := rfl

lemma doAll_cons (a : Action) (as : List Action) (w : World) :
    doAll (a :: as) w = if (a w).2 then doAll as (a w).1 else ((a w).1, false) := rfl

/-- What the actions keep, in whatever way they end. -/
lemma doAll_inv (h : ∀ a ∈ as, ∀ w, I w → I (a w).1) (hw : I w) : I (doAll as w).1 := by
  induction as generalizing w with
  | nil => exact hw
  | cons a as ih =>
    have ha := h a List.mem_cons_self w hw
    rw [doAll_cons]
    split
    · exact ih (fun b hb => h b (List.mem_cons_of_mem a hb)) ha
    · exact ha

/-- What the actions do not change. -/
lemma doAll_view (h : ∀ a ∈ as, ∀ w, f (a w).1 = f w) : f (doAll as w).1 = f w :=
  doAll_inv (I := fun w' => f w' = f w) (fun a ha w' hw' => (h a ha w').trans hw') rfl

/-- What the actions keep where they return. -/
lemma doAll_returned (h : ∀ a ∈ as, ∀ w, I w → (a w).2 → I (a w).1) (hw : I w) (hret : (doAll as w).2) :
    I (doAll as w).1 := by
  induction as generalizing w with
  | nil => exact hw
  | cons a as ih =>
    rw [doAll_cons] at hret ⊢
    split at hret
    next ha =>
      rw [if_pos ha]
      exact ih (fun b hb => h b (List.mem_cons_of_mem a hb)) (h a List.mem_cons_self w hw ha) hret
    next => cases hret

lemma doAll_append (as bs : List Action) (w : World) :
    doAll (as ++ bs) w = if (doAll as w).2 then doAll bs (doAll as w).1 else ((doAll as w).1, false) := by
  induction as generalizing w with
  | nil => rfl
  | cons a as ih =>
    rw [List.cons_append, doAll_cons, doAll_cons]
    split
    · exact ih (a w).1
    · rfl

/-- What stages keep, in whatever way they end. -/
lemma doStages_inv {ss : List (Stage × List Action)} (h : ∀ s ∈ ss, ∀ a ∈ s.2, ∀ w, I w → I (a w).1) (hw : I w) :
    I (doStages ss w).1 := by
  induction ss generalizing w with
  | nil => exact hw
  | cons s ss ih =>
    have hs : I (doAll s.2 w).1 := doAll_inv (h s List.mem_cons_self) hw
    rw [doStages]
    split
    · exact ih (fun t ht => h t (List.mem_cons_of_mem s ht)) hs
    · exact hs

lemma doStages_append (ss tt : List (Stage × List Action)) (w : World) :
    doStages (ss ++ tt) w = if (doStages ss w).2 = none then doStages tt (doStages ss w).1 else doStages ss w := by
  induction ss generalizing w with
  | nil => rfl
  | cons s ss ih =>
    rw [List.cons_append, doStages, doStages]
    split
    · exact ih (doAll s.2 w).1
    · rfl

/-- The stage that raises is one of the stages. -/
lemma mem_of_doStages {ss : List (Stage × List Action)} {stage : Stage} (h : (doStages ss w).2 = some stage) :
    ∃ s ∈ ss, s.1 = stage := by
  induction ss generalizing w with
  | nil => cases h
  | cons s ss ih =>
    rw [doStages] at h
    split at h
    · obtain ⟨t, ht, hst⟩ := ih h
      exact ⟨t, List.mem_cons_of_mem s ht, hst⟩
    · exact ⟨s, List.mem_cons_self, Option.some.inj h⟩

/-- If no stage raises, all their actions return. -/
lemma doAll_of_doStages {ss : List (Stage × List Action)} (h : (doStages ss w).2 = none) :
    doAll (ss.flatMap Prod.snd) w = ((doStages ss w).1, true) := by
  induction ss generalizing w with
  | nil => rfl
  | cons s ss ih =>
    rw [doStages] at h ⊢
    rw [List.flatMap_cons, doAll_append]
    split at h
    next hs => rw [if_pos hs, if_pos hs, ih h]
    next => cases h

lemma doAll_append_returned {bs : List Action} (h : (doAll (as ++ bs) w).2) :
    (doAll as w).2 ∧ doAll (as ++ bs) w = doAll bs (doAll as w).1 := by
  rw [doAll_append] at h ⊢
  split at h
  next ha => exact ⟨ha, if_pos ha⟩
  next => cases h

end

/-! ## Harmless actions -/

/-- The action leaves the adapters and the status alone; what is served meanwhile is computed under these
adapters. -/
structure Action.Harmless (a : Action) : Prop where
  live : ∀ w, (a w).1.live = w.live
  status : ∀ w, (a w).1.status = w.status
  cache : ∀ w, ∀ e ∈ (a w).1.cache, e ∈ w.cache ∨ e = w.live

/-- And it writes no metadata. -/
structure Action.Plain (a : Action) : Prop extends a.Harmless where
  records : ∀ w, (a w).1.records = w.records

/-- Where the action returns, it leaves the runs alone. -/
def Action.KeepsRuns (P : Pod) (a : Action) : Prop :=
  ∀ w, (a w).2 → ∀ r < P.tp, ((a w).1.ranks r).run = (w.ranks r).run

lemma plain_of_void {op : Op} {c : Call} (h : ¬ op.Copies ∨ c.Void P) : (rpcA P op c).Plain where
  live _ := World.live_rpc_of_void h
  status := World.status_rpc
  records := World.records_rpc
  cache _ _ he := (World.mem_cache_rpc he).imp_right fun heq => heq.trans (World.live_rpc_of_void h)

lemma plain_rpcA {op : Op} (h : ¬ op.Copies) (c : Call) : (rpcA P op c).Plain := plain_of_void (Or.inl h)

lemma plain_rpcU {op : Op} (h : ¬ op.Copies) (c : Call) : (rpcU P op c).Plain :=
  ⟨⟨(plain_rpcA h c).live, (plain_rpcA h c).status, (plain_rpcA h c).cache⟩, (plain_rpcA h c).records⟩

lemma plain_hubA (c : HubCall) : (hubA c).Plain where
  live w := World.live_serve w _
  status w := World.status_serve w _
  records w := World.records_serve w _
  cache _ _ := World.mem_cache_serve

lemma plain_checkA (ok : Bool) : (checkA ok).Plain :=
  ⟨⟨fun _ => rfl, fun _ => rfl, fun _ _ => Or.inl⟩, fun _ => rfl⟩

lemma plain_resetCacheA (c : HubCall) : (resetCacheA c).Plain where
  live w := by
    rw [resetCacheA, World.live_serve]
    cases c.ok <;> rfl
  status w := by
    rw [resetCacheA, World.status_serve]
    cases c.ok <;> rfl
  records w := by
    rw [resetCacheA, World.records_serve]
    cases c.ok <;> rfl
  cache _ _ he := by
    rcases World.mem_cache_serve he with he | he
    · cases hok : c.ok with
      | true =>
        rw [hok] at he
        exact absurd he List.not_mem_nil
      | false =>
        rw [hok] at he
        exact Or.inl he
    · refine Or.inr (he.trans ?_)
      cases c.ok <;> rfl

/-- The action writes no status and no metadata. -/
def Action.Silent (a : Action) : Prop := ∀ w, (a w).1.status = w.status ∧ (a w).1.records = w.records

lemma Action.Plain.silent {a : Action} (h : a.Plain) : a.Silent := fun w => ⟨h.status w, h.records w⟩

lemma silent_rpcA (op : Op) (c : Call) : (rpcA P op c).Silent := fun w => ⟨World.status_rpc w, World.records_rpc w⟩

lemma silent_rpcU (op : Op) (c : Call) : (rpcU P op c).Silent := fun w => ⟨World.status_rpc w, World.records_rpc w⟩

lemma doAll_silent {as : List Action} (h : ∀ a ∈ as, a.Silent) (w : World) :
    (doAll as w).1.status = w.status ∧ (doAll as w).1.records = w.records :=
  ⟨doAll_view (f := World.status) fun a ha w' => (h a ha w').1,
    doAll_view (f := World.records) fun a ha w' => (h a ha w').2⟩

lemma harmless_writeMeta (c : TrainCalls) : c.writeMeta.Harmless :=
  ⟨fun _ => rfl, fun _ => rfl, fun _ _ => Or.inl⟩

lemma keepsRuns_rpcA {op : Op} (h : ∀ k, op.runAfter k = k.run) (c : Call) : (rpcA P op c).KeepsRuns P := by
  intro w hret r hr
  rw [rpcA, World.ranks_rpc, World.rpcRanks_returns hret hr]
  exact h _

lemma keepsRuns_hubA (c : HubCall) : (hubA c).KeepsRuns P := by
  intro w _ r _
  rw [hubA, World.ranks_serve]

lemma keepsRuns_checkA (ok : Bool) : (checkA ok).KeepsRuns P := fun _ _ _ _ => rfl

lemma keepsRuns_writeMeta (c : TrainCalls) : c.writeMeta.KeepsRuns P := fun _ _ _ _ => rfl

end SuffixHybrid.Sft
