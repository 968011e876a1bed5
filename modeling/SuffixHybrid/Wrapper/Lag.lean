import SuffixHybrid.Wrapper.Prefixes

/-!
# The lag of the mirror

A mix reads the mirror, not the device. What the absorb of its step brings in was staged at the last
enqueue, so a mirror row holds at least what the request had in the step before if that step has enqueued.
A frozen step does not. Behind a frozen stretch the mirror row is up to date only by chance: because the
row has not grown since the last enqueue, because the copy of the count has arrived late, or because the
row has outgrown the window and is seeded anew. Along a run whose steps are calm and `Current` every mix
reads the rows of the step before (`mirror_one_step_behind`).
-/

namespace SuffixHybrid
open Lib

namespace Device

/-- Where the step mixes, what it hands to the mixer for a request that was in the last batch too holds at
least the tokens that the request had in the last step. -/
def OneStepBehind [F64] (a : Authority) (cfg : WrapSettings) (s : Device × Option Tick) (x : Tick) : Prop :=
  s.1.MixesFast cfg x → ∀ y, s.2 = some y → ∀ id ∈ y.ids, id ∈ x.ids →
    a.row (s.1.time - 1) id <+: (s.1.drained cfg x).mirrorRow id

/-- Where the step mixes, for a request that was in the last batch too: the last step has enqueued and the
copy of the count has found the row of the request, or the mirror row or the staged count is not behind the
last step, or the absorb drops the mirror row. -/
def Current [F64] (a : Authority) (cfg : WrapSettings) (s : Device × Option Tick) (x : Tick) : Prop :=
  s.1.MixesFast cfg x → ∀ y, s.2 = some y → ∀ id ∈ y.ids, id ∈ x.ids →
    ∀ c ∈ s.1.synchronized x, c.id = id → ∀ count, c.countRow = some count →
      s.1.time = s.1.enqueued + 1 ∧ count.owner = some id ∨
        a.total (s.1.time - 1) id ≤ max c.start count.total ∨ s.1.Drops c count

section
variable {cfg : WrapSettings} {K : ℕ} {a : Authority} {d : Device} {x : Tick} {id : ReqId}

/-- A count that was staged in the last step is not behind it. -/
lemma Mirrored.count_current (h : d.Mirrored cfg K a) (hx : d.Faithful a x) (htime : d.time = d.enqueued + 1)
    {c : Copy} (hc : c ∈ d.synchronized x) {count : DevRow} (hcount : c.countRow = some count)
    (howner : count.owner = some c.id) : a.total (d.time - 1) c.id ≤ count.total := by
  obtain ⟨c₀, hc₀, rfl⟩ := List.mem_map.mp hc
  obtain ⟨u, hle, _, hshows⟩ := h.shows hx hc₀ (Or.inr hcount) howner
  rw [hshows.total]
  exact a.mono _ (by omega)

/-- A refreshed mirror row holds the row of a step if and only if the mirror row or the staged count is not
behind that step, or the mirror row was dropped. -/
lemma Refreshed.covers_iff {row' : List Token} {u : ℕ} (h : Refreshed a d x id row')
    (hd : d.Staged) (hrow' : a.Mirrors d.time id row') (hu : u ≤ d.time)
    (hlen : (a.row u id).length = a.total u id) : a.row u id <+: row' ↔
      ∀ c ∈ d.synchronized x, c.id = id → ∀ count, c.countRow = some count →
        a.total u id ≤ max c.start count.total ∨ d.Drops c count := by
  cases h with
  | seeded hdrops =>
    constructor
    · exact fun _ c hc hcid count hcount => Or.inr (hdrops c hc hcid count hcount)
    · exact fun _ => ((a.mirrors_row u id).mono hu).isPrefix_row
  | absorbed _ hc hcid hstart hcount hkeeps hmax =>
    constructor
    · intro hpre c' hc' hcid' count' hcount'
      obtain rfl := hd.copy_unique hc hc' (hcid.trans hcid'.symm)
      rw [hcount] at hcount'
      cases hcount'
      left
      rw [← hlen, hstart, ← hmax]
      exact hpre.length_le
    · intro hcurrent
      apply (a.mirrors_row u id).isPrefix hrow'
      rcases hcurrent _ hc hcid _ hcount with hle | hdrops
      · rw [hlen, hmax, ← hstart]
        exact hle
      · exact absurd hdrops hkeeps

/-- At a step, the mix is at most a step behind exactly if its copies are current. -/
lemma oneStepBehind_iff [F64] (hc : cfg.Async) {last : Option Tick} (h : d.Mirrored cfg K a)
    (hx : d.Faithful a x) (hcalm : d.Calm cfg x) :
    OneStepBehind a cfg (d, last) x ↔ Current a cfg (d, last) x := by
  have hdrained : d.drained cfg x = d.prepared cfg x := Wrapper.drain_legacy hc.legacy _ _
  unfold OneStepBehind Current
  refine imp_congr_right fun hmixes => forall_congr' fun y => imp_congr_right fun _ =>
    forall_congr' fun id => imp_congr_right fun _ => imp_congr_right fun hid => ?_
  obtain ⟨row', hrow', hmirrors, hrefreshed⟩ := prepared_row hc h hx hcalm hmixes.1 hid
  rw [hdrained, mirrorRow_of_lookup hrow',
    hrefreshed.covers_iff (h.legacy hc.legacy) hmirrors (Nat.sub_le _ _) (hx.length_row hid (Nat.sub_le _ _))]
  refine forall_congr' fun c => imp_congr_right fun hcopy => imp_congr_right fun hcid =>
    forall_congr' fun count => imp_congr_right fun hcount => ?_
  constructor
  · exact Or.inr
  · rintro (⟨htime, howner⟩ | hrest)
    · subst hcid
      exact Or.inl ((h.count_current hx htime hcopy hcount howner).trans (le_max_right _ _))
    · exact hrest

end

/-- In every run of the asynchronous fast path around a mixer that tracks nothing yet, whose steps find
append-only rows and are calm, every mix is at most a step behind for the requests that stay if and only if
the copies that it absorbs are current. -/
theorem mirror_one_step_behind_iff [F64] {cfg : WrapSettings} (hc : cfg.Async) {m : HybridMixer}
    (hm : HybridMixer.Reachable m) (hnew : m.previous = ∅) (k : ℕ) (a : Authority) {xs : List Tick}
    (h : Along (next cfg) (fun d x => d.Faithful a x ∧ d.Calm cfg x) (start m k) xs) :
    Along (remembering (next cfg)) (OneStepBehind a cfg) (start m k, none) xs ↔
      Along (remembering (next cfg)) (Current a cfg) (start m k, none) xs := by
  have hlegacy : cfg.splitDiverge ≠ true := by simp [hc.legacy]
  have hstep (s : Device × Option Tick) (x : Tick) (hs : s.1.Mirrored cfg k a)
      (hx : s.1.Faithful a x ∧ s.1.Calm cfg x) : (OneStepBehind a cfg s x ↔ Current a cfg s x) ∧
        ∀ s', remembering (next cfg) s x = some s' → s'.1.Mirrored cfg k a := by
    refine ⟨oneStepBehind_iff hc hs hx.1 hx.2, fun s' hs' => ?_⟩
    obtain ⟨d', hd', rfl⟩ := Option.map_eq_some_iff.mp hs'
    exact hs.next hc.toOnCuda hx.1 (fun hdiverge => absurd hdiverge hlegacy) hx.2 hd'
  exact Along.iff hstep (mirrored_start cfg a hm hnew (Or.inr rfl)) (h.remembering none)

lemma along_prompt [F64] (cfg : WrapSettings) (m : HybridMixer) (k n : ℕ) :
    Along (next cfg) (fun d x => d.Faithful growing x ∧ d.Calm cfg x) (start m k)
      (growingSteps (true, true) n) :=
  Along.and (Along.mono (fun _ _ hx => hx.1) (along_growing cfg m k (true, true) n))
    (calm_growing cfg m k n)

/-- Where every step enqueues, every mix is at most a step behind. -/
theorem mirror_one_step_behind_iff_mixed :
    Along (remembering (next alone)) (OneStepBehind growing alone) (start Wrapper.emptyMixer 2, none)
      (growingSteps (true, true) 3) := by
  refine (mirror_one_step_behind_iff alone_async Wrapper.emptyMixer_reachable rfl 2 growing
    (along_prompt alone Wrapper.emptyMixer 2 3)).mpr ?_
  have hcheck : Along (remembering (next alone)) (fun s x => s.2.isNone = true ∨
      s.1.time = s.1.enqueued + 1 ∧ ∀ c ∈ s.1.synchronized x,
        c.countRow.all (fun count => count.owner = some c.id) = true)
      (start Wrapper.emptyMixer 2, none) (growingSteps (true, true) 3) := by decide
  refine Along.mono (fun s x h _ y hy id _ _ c hc hcid count hcount => ?_) hcheck
  rcases h with hnone | ⟨htime, hall⟩
  · rw [hy] at hnone
    cases hnone
  · have howner := hall c hc
    rw [hcount, Option.all_some, decide_eq_true_eq, hcid] at howner
    exact Or.inl ⟨htime, howner⟩

/-- A mixer whose cache holds a sequence already. -/
def warmMixer : HybridMixer :=
  ((Wrapper.emptyMixer.op (.addSequence [1, 2, 3]))).getD Wrapper.emptyMixer

lemma warmMixer_reachable : HybridMixer.Reachable warmMixer ∧ warmMixer.previous = ∅ := by
  obtain ⟨cache, hadd, _⟩ := Wrapper.emptyMixer_reachable.inv.cache.add [1, 2, 3]
  have hrun : run HybridMixer.op Wrapper.emptyMixer [.addSequence [1, 2, 3]] = some warmMixer := by
    simp [warmMixer, HybridMixer.op, hadd]
  refine ⟨HybridMixer.Reachable.of_run (by decide) hrun, ?_⟩
  rw [warmMixer, HybridMixer.op, hadd]
  rfl

/-- A heartbeat on every second step, and requests that cool down after one mix without a win. -/
def cooling : WrapSettings :=
  { rank := 0, worldSize := 1, heartbeat := 2, cooldown := 1, indexN := 1 }

/-- The heartbeat mix behind a frozen step reads the row of two steps ago. -/
theorem frozen_step_missed : cooling.Async ∧
    (HybridMixer.Reachable warmMixer ∧ warmMixer.previous = ∅) ∧
    Along (next cooling) (fun d x => d.Faithful growing x ∧ d.Calm cooling x) (start warmMixer 2)
      (growingSteps (true, true) 4) ∧
    ¬ Along (remembering (next cooling)) (OneStepBehind growing cooling) (start warmMixer 2, none)
      (growingSteps (true, true) 4) := by
  refine ⟨⟨⟨Or.inl rfl, rfl⟩, rfl⟩, warmMixer_reachable, along_prompt cooling warmMixer 2 4,
    fun h => ?_⟩
  have hview : (run (remembering (next cooling)) (start warmMixer 2, none) (growingSteps (true, true) 3)).map
      (fun s => ((s.1.time, (s.2.map (·.ids))), s.1.stages cooling (growingStep 3 (true, true)),
        (s.1.prepared cooling (growingStep 3 (true, true))).probe cooling
          (s.1.step (growingStep 3 (true, true))),
        (s.1.drained cooling (growingStep 3 (true, true))).mirrorRow "a"))
      = some ((3, some ["a"]), true, some true, [4, 5, 7, 8]) := by decide
  obtain ⟨s, hs, heq⟩ := Option.map_eq_some_iff.mp hview
  simp only [Prod.mk.injEq] at heq
  obtain ⟨⟨htime, hlast⟩, hstages, hprobe, hrow⟩ := heq
  obtain ⟨y, hy, hids⟩ := Option.map_eq_some_iff.mp hlast
  have hbehind : OneStepBehind growing cooling s (growingStep 3 (true, true)) :=
    (show Along _ _ _ (growingSteps (true, true) 3 ++ [growingStep 3 (true, true)]) from h).last hs
  have hpre := hbehind ⟨hstages, hprobe⟩ y hy "a" (by rw [hids]; decide) (by decide)
  rw [htime, hrow] at hpre
  exact absurd hpre (by decide)

end Device
end SuffixHybrid
