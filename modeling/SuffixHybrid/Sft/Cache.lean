import SuffixHybrid.Sft.Serving

/-!
# The prefix cache

`Fresh`: every entry of the prefix cache was computed under the adapters that are live. A training run and a
load that return have reset the cache behind their copies. Their failure paths zero the adapters and do not
reset it, and a restore copies adapters and does not reset it either: it relies on a cache that is empty
because nothing has been served yet. `Cleared` is the condition on an operation.
-/

namespace SuffixHybrid.Sft
open Lib World
variable {P : Pod}

/-- The cache holds nothing of other adapters. -/
def World.Fresh (w : World) : Prop := ∀ e ∈ w.cache, e = w.live

/-- Nothing is served in an attempt. -/
def Attempt.unserved (a : Attempt) : Bool := !a.latest.served && !a.fetch.served && !a.load.served

/-- A restore runs in front of the first request, or no attempt of it copies anything; a training run does
not fail in its last stage, and a load not behind its preparation. -/
def Cleared (P : Pod) (w : World) : Operation → Prop
  | .restore c => (w.cache = [] ∧ ∀ a ∈ c.attempts, a.unserved) ∨
      ∀ a ∈ c.attempts, a.pointer.join.isSome → a.latest.ok ∧ a.fetch.ok → a.load.Void P
  | .train c => c.accepted w → (w.trainStages P c).2 ≠ some .serve
  | .load c => ∀ run ∈ c.request, c.prepared run → c.applied P

namespace World
variable {w : World}

lemma Fresh.harmless (h : w.Fresh) {a : Action} (ha : a.Harmless) : (a w).1.Fresh := by
  intro e he
  rw [ha.live]
  exact (ha.cache w e he).elim (h e) id

lemma Fresh.actions (h : w.Fresh) {as : List Action} (has : ∀ a ∈ as, a.Harmless) : (doAll as w).1.Fresh :=
  doAll_inv (fun a ha _ hw => hw.harmless (has a ha)) h

/-- A cache that was reset. -/
lemma fresh_resetCache {c : HubCall} (hok : (resetCacheA c w).2) : (resetCacheA c w).1.Fresh := by
  intro e he
  have hc : c.ok = true := hok
  rw [resetCacheA, live_serve]
  rw [resetCacheA, hc] at he
  rw [hc]
  exact (mem_cache_serve he).resolve_left List.not_mem_nil

/-! ## Train -/

lemma fresh_serving {c : TrainCalls} (hret : (doAll (c.serving P) w).2) : (doAll (c.serving P) w).1.Fresh := by
  rw [TrainCalls.serving, doAll_cons] at hret ⊢
  split at hret
  next hkv =>
    rw [if_pos hkv]
    rw [doAll_cons] at hret ⊢
    split at hret
    next hcommit =>
      rw [if_pos hcommit]
      rw [doAll_cons] at hret ⊢
      split at hret
      next hreset =>
        rw [if_pos hreset]
        refine (fresh_resetCache hreset).actions fun a ha => ?_
        rw [List.mem_singleton.mp ha]
        exact (plain_rpcA id c.parityAfter).toHarmless
      next => cases hret
    next => cases hret
  next => cases hret

lemma recovery_harmless {c : TrainCalls} {stage : Stage} (hstage : stage ≠ .serve) :
    ∀ a ∈ c.recovery P stage, a.Harmless := by
  intro a ha
  rw [TrainCalls.recovery, if_neg hstage, List.append_nil] at ha
  simp only [List.mem_cons, List.not_mem_nil, or_false] at ha
  rcases ha with rfl | rfl
  · exact (plain_rpcU id _).toHarmless
  · exact (plain_rpcU id _).toHarmless

lemma Fresh.train (h : w.Fresh) {c : TrainCalls} (hc : Cleared P w (.train c)) : (w.train P c).Fresh := by
  rw [World.train]
  split
  next hacc =>
    have hstages := hc hacc
    have hearly : (doStages (c.early P) (c.started w)).1.Fresh :=
      doStages_inv (fun s hs a ha _ hw => hw.harmless (c.early_harmless s hs a ha)) h
    rw [trainStages, TrainCalls.stages, doStages_append] at hstages ⊢
    split at hstages
    next hret =>
      rw [if_pos hret]
      rw [doStages] at hstages ⊢
      split at hstages
      next hserving =>
        rw [if_pos hserving]
        exact fresh_serving hserving
      next => exact absurd rfl hstages
    next hfail =>
      rw [if_neg hfail]
      generalize doStages (c.early P) (c.started w) = res at hstages hearly hfail
      obtain ⟨w1, failed⟩ := res
      cases failed with
      | none => exact absurd rfl hfail
      | some stage =>
        have hrec : (doAll (c.recovery P stage) w1).1.Fresh :=
          hearly.actions (recovery_harmless fun hstage => hstages (congrArg some hstage))
        dsimp only
        split
        · exact hrec
        · exact hrec
  next => exact h

/-! ## Load -/

lemma fresh_apply {c : LoadCalls} {run : Option String} (hret : (doAll (c.apply' P run) w).2) :
    (doAll (c.apply' P run) w).1.Fresh := by
  rw [LoadCalls.apply', doAll_cons] at hret ⊢
  split at hret
  next hop =>
    rw [if_pos hop]
    rw [doAll_cons] at hret ⊢
    split at hret
    next hpublish =>
      rw [if_pos hpublish]
      rw [doAll_cons] at hret ⊢
      split at hret
      next hreset =>
        rw [if_pos hreset]
        exact fresh_resetCache hreset
      next => cases hret
    next => cases hret
  next => cases hret

lemma Fresh.load (h : w.Fresh) {c : LoadCalls} (hc : Cleared P w (.load c)) : (w.load P c).Fresh := by
  rw [World.load]
  split
  next => exact h
  next run hrequest =>
    have hprepared := LoadCalls.prepare_snd (c := c) (w := c.started w) run
    have h1 : (doAll (c.prepare run) (c.started w)).1.Fresh :=
      Fresh.actions (w := c.started w) h fun a ha => (LoadCalls.prepare_plain run a ha).toHarmless
    generalize doAll (c.prepare run) (c.started w) = res1 at hprepared h1 ⊢
    obtain ⟨w1, ok1⟩ := res1
    dsimp only at hprepared h1 ⊢
    split
    next hok1 =>
      have happlied := (LoadCalls.apply_snd (P := P) (c := c) (w := w1) run).trans
        (hc run hrequest (hprepared ▸ hok1))
      have h2 := fresh_apply happlied
      generalize doAll (c.apply' P run) w1 = res2 at happlied h2 ⊢
      obtain ⟨w2, ok2⟩ := res2
      subst happlied
      exact h2
    next => exact h1

/-! ## Restore -/

lemma attempt_empty {a : Attempt} (ha : a.unserved) (h : w.cache = []) : (doAll (a.actions P) w).1.cache = [] := by
  rw [Attempt.unserved, Bool.and_eq_true, Bool.and_eq_true, Bool.not_eq_true', Bool.not_eq_true',
    Bool.not_eq_true'] at ha
  obtain ⟨⟨hlatest, hfetch⟩, hload⟩ := ha
  refine doAll_inv (I := fun w => w.cache = []) (fun b hb w' hw' => ?_) h
  rcases List.mem_cons.mp hb with rfl | hb
  · rw [hubA, hlatest]
    exact hw'
  · split at hb
    · rcases List.mem_cons.mp hb with rfl | hb
      · rw [hubA, hfetch]
        exact hw'
      · rw [List.mem_singleton.mp hb, rpcA, rpc, hload]
        exact hw'
    · cases hb

lemma restoreFrom_empty (text : String) (as : List Attempt) (has : ∀ a ∈ as, a.unserved) (h : w.cache = []) :
    (w.restoreFrom P text as).cache = [] := by
  induction as generalizing w with
  | nil => exact h
  | cons a as ih =>
    have h1 := attempt_empty (P := P) (has a List.mem_cons_self) h
    rw [restoreFrom]
    generalize doAll (a.actions P) w = res at h1
    obtain ⟨w1, ok⟩ := res
    cases ok
    · exact ih (fun b hb => has b (List.mem_cons_of_mem a hb)) h1
    · exact h1

lemma attempt_harmless {a : Attempt} (ha : a.pointer.join.isSome → a.latest.ok ∧ a.fetch.ok → a.load.Void P)
    (h : w.Fresh) : (doAll (a.actions P) w).1.Fresh := by
  cases hp : a.pointer.join with
  | none =>
    rw [attempt_none hp]
    exact h.harmless (plain_hubA a.latest).toHarmless
  | some id =>
    rw [Attempt.actions, hp, doAll_cons]
    have hlatest := h.harmless (plain_hubA a.latest).toHarmless
    split
    next hl =>
      rw [doAll_cons]
      have hfetch := hlatest.harmless (plain_hubA a.fetch).toHarmless
      split
      next hf =>
        have hvoid := ha (hp ▸ rfl) ⟨hl, hf⟩
        refine hfetch.actions fun b hb => ?_
        rw [List.mem_singleton.mp hb]
        exact (plain_of_void (Or.inr hvoid)).toHarmless
      next => exact hfetch
    next => exact hlatest

lemma restoreFrom_fresh (text : String) (as : List Attempt)
    (has : ∀ a ∈ as, a.pointer.join.isSome → a.latest.ok ∧ a.fetch.ok → a.load.Void P) (h : w.Fresh) :
    (w.restoreFrom P text as).Fresh := by
  induction as generalizing w with
  | nil => exact h
  | cons a as ih =>
    have h1 := attempt_harmless (has a List.mem_cons_self) h
    rw [restoreFrom]
    generalize Sft.doAll (a.actions P) w = res at h1
    obtain ⟨w1, ok⟩ := res
    cases ok
    · exact ih (fun b hb => has b (List.mem_cons_of_mem a hb)) h1
    · exact h1

lemma Fresh.exec (h : w.Fresh) {op : Operation} (hc : Cleared P w op) : (w.exec P op).Fresh := by
  cases op with
  | restore c =>
    rcases hc with ⟨hempty, hunserved⟩ | hvoid
    · have hcache := restoreFrom_empty (P := P) c.text c.attempts hunserved hempty
      intro e he
      rw [World.exec, World.restore, hcache] at he
      exact absurd he List.not_mem_nil
    · exact restoreFrom_fresh c.text c.attempts hvoid h
  | train c => exact h.train hc
  | load c => exact h.load hc

end World

/-! ## Runs -/

/-- Between the operations the prefix cache holds nothing of other adapters, as long as the operations clear
it. -/
theorem cache_fresh {ops : List Operation} (h : Along (step P) (Cleared P) fresh ops) :
    ∀ pre, pre <+: ops → (fresh.execAll P pre).Fresh := by
  rintro pre ⟨rest, rfl⟩
  have hstep (w : World) (op : Operation) (w' : World) (hw : w.Fresh) (hc : Cleared P w op)
      (hs : step P w op = some w') : w'.Fresh := by
    rw [← Option.some.inj hs]
    exact hw.exec hc
  exact Along.inv hstep (fun _ he => absurd he List.not_mem_nil) (Along.append.mp h).1 (run_step P pre fresh)

/-! ## Two ranks -/

/-- The load of a run, with requests served behind it. -/
def servedLoad : LoadCalls := { refusedLoad with publish := hubOk, resetCache := ⟨true, true⟩ }

theorem cache_fresh_served :
    (fresh.execAll twoRanks [.restore ⟨restoreRun .ok, restoreRun .ok, restoreRun .ok, ""⟩,
      .load servedLoad]).Fresh := by
  have h : Along (step twoRanks) (Cleared twoRanks) fresh
      [.restore ⟨restoreRun .ok, restoreRun .ok, restoreRun .ok, ""⟩, .load servedLoad] := by
    refine ⟨Or.inl ⟨rfl, by decide⟩, fun w _ => ⟨?_, fun _ _ => trivial⟩⟩
    intro run _ _
    decide
  exact cache_fresh h _ List.prefix_rfl

/-- A load that the Hub does not take zeroes the adapters, and the cache still has the entries of the run
before. -/
theorem stale_cache : ¬ (fresh.execAll twoRanks [.load servedLoad, .load refusedLoad]).Fresh := by
  intro h
  have hcache : (fresh.execAll twoRanks [.load servedLoad, .load refusedLoad]).cache =
      [(fresh.exec twoRanks (.load servedLoad)).live] := rfl
  have hlive := h _ (hcache ▸ List.mem_singleton_self _)
  have hsource := congrFun (congrFun hlive 0) (0, .B)
  revert hsource
  decide

end SuffixHybrid.Sft
