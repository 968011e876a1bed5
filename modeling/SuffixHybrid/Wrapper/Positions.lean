import SuffixHybrid.Wrapper.Async

/-!
# Outcomes by position

The staging buffers keep the verifier's outcomes by batch position, the recorded widths are by request. A
mix that reads a position before the copy of its own step has arrived finds the outcome that the last
enqueue left there, of whichever request had the position then, or what a grown buffer holds. The outcomes
that a mix uses belong to their requests exactly if every position that it reads too early has not changed
hands, or holds values that the plausibility check drops (`outcomes_belong_iff`).
-/

namespace SuffixHybrid
open Lib

namespace Device

/-- The step mixes in the fast body. -/
def MixesFast [F64] (cfg : WrapSettings) (d : Device) (x : Tick) : Prop :=
  d.stages cfg x = true ∧ (d.prepared cfg x).probe cfg (d.step x) = some true

/-- An accepted length that the fast body hands to the mixer is the outcome of its own request, as reported
in this step or in the step of the last enqueue. -/
def Belongs [F64] (cfg : WrapSettings) (d : Device) (x : Tick) : Prop :=
  d.wrapper.triesFast (d.step x) = true → ∀ out, d.wrapper.fastBody cfg (d.step x) = some out →
    ∀ m ids accepted, Event.mix m ids accepted ∈ out.events →
      ∀ i r a, x.batch[i]? = some r → accepted[i]? = some a → a = -1 ∨
        ∃ rep, d.found x i = some rep ∧ rep.id = r.id ∧ a = rep.sampled - 1 ∧
          (rep.time = d.time ∨ rep.time = d.enqueued)

/-- A position that the mix reads before the copy of the step has arrived belonged to the same request at
the last enqueue and the buffers have not grown, or the check of the outcome drops what it holds. -/
def InPlace [F64] (cfg : WrapSettings) (d : Device) (x : Tick) : Prop :=
  d.MixesFast cfg x → ∀ i r, x.batch[i]? = some r → x.sampledArrives i = true ∨
    d.grows x = false ∧ d.copies[i]?.map (·.id) = some r.id ∨
    acceptedLength ((d.wrapper.previousWidths.lookup r.id).getD 0) ((d.inFlight x).sampled i)
      ((d.inFlight x).rejected i) = -1

/-! ## The reports -/

/-- The buffers hold the values of their reports, and beneath the copies of the last enqueue there are
older reports only. -/
structure Clocked (d : Device) : Prop where
  clock : ∀ i rep, d.reportsOnEntry i = some rep → d.enqueued < d.time
  older : ∀ i rep, d.reports i = some rep → rep.time < d.enqueued
  values : ∀ i rep, d.reports i = some rep → d.buffers.sampled i = rep.sampled

lemma clocked_start (mixer : HybridMixer) (k : ℕ) : Clocked (start mixer k) where
  clock := fun i rep h => by simp [start, reportsOnEntry] at h
  older := fun i rep h => by simp [start] at h
  values := fun i rep h => by simp [start] at h

section reports
variable {d : Device} {x : Tick} {i : ℕ} {rep : Report}

/-- A report on entry is of the last enqueue if and only if it is from a copy. -/
lemma Clocked.onEntry (h : d.Clocked) (hrep : d.reportsOnEntry i = some rep) :
    (d.onEntry x).sampled i = rep.sampled ∧ rep.time ≤ d.enqueued ∧
      (rep.time = d.enqueued → d.copies[i]?.map (·.id) = some rep.id) := by
  unfold reportsOnEntry at hrep
  simp only [Device.onEntry]
  cases hcopy : d.copies[i]? with
  | none =>
    rw [hcopy] at hrep
    have hlt := h.older i rep hrep
    exact ⟨h.values i rep hrep, hlt.le, fun heq => absurd heq hlt.ne⟩
  | some copy =>
    rw [hcopy] at hrep
    cases hrep
    exact ⟨rfl, le_rfl, fun _ => rfl⟩

lemma Clocked.beneath (h : d.Clocked) (hrep : d.reportsBeneath x i = some rep) :
    (d.beneath x).sampled i = rep.sampled ∧ d.grows x = false ∧ d.reportsOnEntry i = some rep := by
  unfold reportsBeneath at hrep
  unfold Device.beneath
  split at hrep
  case isTrue => cases hrep
  case isFalse hgrows =>
    rw [if_neg hgrows]
    exact ⟨(h.onEntry hrep).1, by simpa using hgrows, hrep⟩

/-- The mix reads the value of the report that it finds. -/
lemma Clocked.found (h : d.Clocked) (hrep : d.found x i = some rep) :
    (d.inFlight x).sampled i = rep.sampled := by
  unfold Device.found at hrep
  simp only [inFlight]
  split at hrep
  case isTrue harrives =>
    rw [if_pos harrives]
    cases hr : x.batch[i]? with
    | none =>
      rw [hr] at hrep
      exact (h.beneath hrep).1
    | some r =>
      rw [hr] at hrep
      cases hrep
      rfl
  case isFalse harrives =>
    rw [if_neg harrives]
    exact (h.beneath hrep).1

/-- A step keeps the reports. -/
lemma Clocked.advance (h : d.Clocked) (cfg : WrapSettings) (wrapper : Wrapper) :
    (d.advance cfg x wrapper).Clocked := by
  unfold Device.advance
  split
  case isTrue =>
    exact {
      clock := fun i rep _ => Nat.lt_succ_self _
      older := fun i rep hrep => by
        obtain ⟨_, _, hentry⟩ := h.beneath hrep
        exact (h.onEntry (x := x) hentry).2.1.trans_lt (h.clock i rep hentry)
      values := fun i rep hrep => (h.beneath hrep).1 }
  case isFalse =>
    have hentry (i : ℕ) (rep : Report)
        (hrep : ({ d with wrapper, time := d.time + 1, copies := d.arrive x } : Device).reportsOnEntry i
          = some rep) : ∃ rep', d.reportsOnEntry i = some rep' := by
      unfold reportsOnEntry at hrep ⊢
      simp only [arrive, List.getElem?_mapIdx] at hrep
      cases hcopy : d.copies[i]? with
      | none =>
        rw [hcopy] at hrep
        exact ⟨rep, hrep⟩
      | some copy => exact ⟨_, rfl⟩
    exact {
      clock := fun i rep hrep => by
        obtain ⟨rep', hrep'⟩ := hentry i rep hrep
        exact (h.clock i rep' hrep').trans (Nat.lt_succ_self _)
      older := h.older
      values := h.values }

end reports

@[simp] lemma advance_wrapper (cfg : WrapSettings) (d : Device) (x : Tick) (wrapper : Wrapper) :
    (d.advance cfg x wrapper).wrapper = wrapper := by
  unfold advance
  split <;> rfl

/-! ## The mix -/

section mix
variable {cfg : WrapSettings} {d : Device} {x : Tick} {i : ℕ} {r : TickRow}

/-- The feedback for a position. -/
lemma getElem?_fastFeedback (hc : cfg.Async) (hr : x.batch[i]? = some r) :
    ((d.prepared cfg x).fastFeedback cfg (d.step x))[i]?
      = some (acceptedLength ((d.wrapper.previousWidths.lookup r.id).getD 0)
        ((d.inFlight x).sampled i) ((d.inFlight x).rejected i)) := by
  have hwidths : (d.prepared cfg x).previousWidths = d.wrapper.previousWidths :=
    (Wrapper.shared_eq (Wrapper.shared_prepare cfg d.wrapper (d.step x))).2.1
  have hlanded : (d.prepared cfg x).landed cfg (d.step x) = d.inFlight x := by
    rw [Wrapper.landed, hc.cuda, hc.legacy]
    rfl
  have hid : (d.step x).ids[i]? = some r.id := by
    simp [Step.ids, step, hr]
  rw [Wrapper.fastFeedback, acceptedLengths, hlanded, hwidths, List.getElem?_map, List.getElem?_map,
    List.getElem?_zipIdx, hid]
  simp

/-- An accepted length is `-1` or the sampled count less the token that is sampled anew. -/
lemma acceptedLength_cases (previous : ℕ) (ns nr : ℤ) :
    acceptedLength previous ns nr = -1 ∨ acceptedLength previous ns nr = ns - 1 := by
  unfold acceptedLength
  dsimp only
  split
  · exact Or.inr rfl
  · exact Or.inl rfl

/-- A report that the mix finds is one of its request if and only if it has arrived, or the position has
not changed hands. -/
lemma Clocked.found_iff (h : d.Clocked) (hr : x.batch[i]? = some r) :
    (∃ rep, d.found x i = some rep ∧ rep.id = r.id ∧ (rep.time = d.time ∨ rep.time = d.enqueued)) ↔
      x.sampledArrives i = true ∨ d.grows x = false ∧ d.copies[i]?.map (·.id) = some r.id := by
  constructor
  · rintro ⟨rep, hrep, hid, htime⟩
    by_cases harrives : x.sampledArrives i = true
    · exact Or.inl harrives
    · rw [Device.found, if_neg harrives] at hrep
      obtain ⟨_, hgrows, hentry⟩ := h.beneath hrep
      obtain ⟨_, hle, hcopy⟩ := h.onEntry (x := x) hentry
      have hlt := h.clock i rep hentry
      have hlast : rep.time = d.enqueued := by
        rcases htime with heq | heq
        · omega
        · exact heq
      exact Or.inr ⟨hgrows, by rw [hcopy hlast, hid]⟩
  · rintro (harrives | ⟨hgrows, hcopy⟩)
    · refine ⟨{ time := d.time, id := r.id, sampled := r.sampled }, ?_, rfl, Or.inl rfl⟩
      rw [Device.found, if_pos harrives, hr]
    · by_cases harrives : x.sampledArrives i = true
      · refine ⟨{ time := d.time, id := r.id, sampled := r.sampled }, ?_, rfl, Or.inl rfl⟩
        rw [Device.found, if_pos harrives, hr]
      · obtain ⟨copy, hcopy, hid⟩ := Option.map_eq_some_iff.mp hcopy
        refine ⟨{ time := d.enqueued, id := copy.id, sampled := copy.sampled }, ?_, hid, Or.inr rfl⟩
        rw [Device.found, if_neg harrives, reportsBeneath, hgrows, reportsOnEntry, hcopy]
        rfl

variable [F64]

/-- At a step, the outcomes belong to their requests exactly if they are in place. -/
lemma belongs_iff (hc : cfg.Async) (h : d.Clocked) (hinv : d.wrapper.mixer.Inv) :
    d.Belongs cfg x ↔ d.InPlace cfg x := by
  constructor
  · rintro hbelongs ⟨hstages, hprobe⟩ i r hr
    simp only [stages, Bool.and_eq_true, Bool.not_eq_true'] at hstages
    obtain ⟨⟨_, htries⟩, hfreezes⟩ := hstages
    obtain ⟨out, hout, hmix⟩ := Wrapper.fastBody_mixes hc.toOnCuda (fun _ => rfl) hinv hfreezes hprobe
    rw [Wrapper.drain_legacy hc.legacy] at hmix
    obtain ⟨_, _, hmem, _⟩ := Wrapper.mixAndPublish_spec hmix
    rcases hbelongs htries out hout _ _ _ hmem i r _ hr (getElem?_fastFeedback hc hr) with
      hnone | ⟨rep, hrep, hid, _, htime⟩
    · exact Or.inr (Or.inr hnone)
    · rcases (h.found_iff hr).mp ⟨rep, hrep, hid, htime⟩ with harrives | hplace
      · exact Or.inl harrives
      · exact Or.inr (Or.inl hplace)
  · intro hplace htries out hout m ids accepted hmem i r a hr ha
    cases Wrapper.fastBody_exit hc.toOnCuda (fun _ => rfl) hout with
    | frozen _ heq | skipped _ _ heq =>
      rw [heq] at hmem
      exact absurd hmem (Wrapper.skip_no_mix cfg _ _)
    | mixed hfreezes hprobe hmix =>
      rw [Wrapper.drain_legacy hc.legacy] at hmix
      obtain ⟨_, _, _, honly⟩ := Wrapper.mixAndPublish_spec hmix
      obtain ⟨_, _, rfl⟩ := honly m ids accepted hmem
      have hfeedback := Option.some.inj (ha.symm.trans (getElem?_fastFeedback hc hr))
      have hmixes : d.MixesFast cfg x := by
        refine ⟨?_, hprobe⟩
        rw [stages, hc.owner_true, htries, hfreezes]
        rfl
      rcases acceptedLength_cases ((d.wrapper.previousWidths.lookup r.id).getD 0)
        ((d.inFlight x).sampled i) ((d.inFlight x).rejected i) with hnone | hcount
      · exact Or.inl (hfeedback.trans hnone)
      · rcases hplace hmixes i r hr with harrives | hkept | hdropped
        · obtain ⟨rep, hrep, hid, htime⟩ := (h.found_iff hr).mpr (Or.inl harrives)
          exact Or.inr ⟨rep, hrep, hid, by rw [hfeedback, hcount, h.found hrep], htime⟩
        · obtain ⟨rep, hrep, hid, htime⟩ := (h.found_iff hr).mpr (Or.inr hkept)
          exact Or.inr ⟨rep, hrep, hid, by rw [hfeedback, hcount, h.found hrep], htime⟩
        · exact Or.inl (hfeedback.trans hdropped)

end mix

/-- In every run of the asynchronous fast path, the outcomes belong to their requests at every step if and
only if they are in place at every step. -/
theorem outcomes_belong_iff [F64] {cfg : WrapSettings} (hc : cfg.Async) {m : HybridMixer}
    (hm : HybridMixer.Reachable m) (k : ℕ) (xs : List Tick) :
    Along (next cfg) (Belongs cfg) (start m k) xs ↔ Along (next cfg) (InPlace cfg) (start m k) xs := by
  have hstep (d : Device) (x : Tick) (h : d.Clocked ∧ d.wrapper.mixer.Inv) (_ : True) :
      (d.Belongs cfg x ↔ d.InPlace cfg x) ∧
        ∀ d', d.next cfg x = some d' → d'.Clocked ∧ d'.wrapper.mixer.Inv := by
    refine ⟨belongs_iff hc h.1 h.2, fun d' hd' => ?_⟩
    obtain ⟨out, hout, rfl⟩ := Option.map_eq_some_iff.mp hd'
    refine ⟨h.1.advance cfg out.state, ?_⟩
    rw [advance_wrapper]
    exact Wrapper.propose_inv h.2 hout
  have htrue : Along (next cfg) (fun _ _ => True) (start m k) xs := Along.of_forall fun _ _ _ => trivial
  exact Along.iff hstep ⟨clocked_start m k, hm.inv⟩ htrue

/-- A step with two requests, in a given order and with their outcomes, whose rows have the given totals.
Its copies arrive within it, or not before the next one. -/
def pair (rows : List (ReqId × ℤ × ℤ)) (totalA totalB : ℕ) (arrives : Bool) : Tick where
  k := 2
  ncols := 10
  batch := rows.map fun (id, sampled, rejected) =>
    { id, slot := if id = "a" then 0 else 1, native := [9, 9], sampled, rejected }
  order := HashOrder.stored ReqId
  mem j := if j = 0 then ⟨some "a", List.replicate 10 4, totalA⟩
    else ⟨some "b", List.replicate 10 5, totalB⟩
  arrives := fun _ => (false, false)
  within := fun _ => (arrives, arrives)
  sampledArrives := fun _ => arrives
  rejectedArrives := fun _ => arrives
  grown := ⟨fun _ _ => 0, fun _ => 0, fun _ => 0, fun _ => 0⟩
  native_length := fun r hr => by
    obtain ⟨_, _, rfl⟩ := List.mem_map.mp hr
    rfl
  tokens_length := fun r _ => by
    split <;> rfl

/-- The owner, alone in its group. -/
def alone : WrapSettings := { rank := 0, worldSize := 1 }

lemma alone_async : alone.Async := ⟨⟨Or.inl rfl, rfl⟩, rfl⟩

/-- Two requests, of which `a` has both tokens accepted and `b` none. -/
def twoOutcomes (arrives : Bool) : List Tick :=
  [pair [("a", 1, 0), ("b", 1, 0)] 2 2 arrives, pair [("a", 3, 0), ("b", 1, 2)] 5 3 arrives]

/-- The requests have changed places. -/
def changedPlaces (arrives : Bool) : Tick := pair [("b", 1, 2), ("a", 1, 2)] 6 4 arrives

/-- Where the copies arrive in time, the change of places does no harm. -/
theorem outcomes_belong_iff_arrived :
    Along (next alone) (Belongs alone) (start Wrapper.emptyMixer 2)
      (twoOutcomes true ++ [changedPlaces true]) := by
  refine (outcomes_belong_iff alone_async Wrapper.emptyMixer_reachable 2 _).mpr
    (Along.of_forall fun d x hx _ i r _ => Or.inl ?_)
  simp only [twoOutcomes, changedPlaces, List.cons_append, List.nil_append, List.mem_cons,
    List.not_mem_nil, or_false] at hx
  rcases hx with rfl | rfl | rfl <;> rfl

/-- Where they do not, the mixer is handed the two accepted tokens of `a` for `b`. -/
theorem changed_places_mixed_up : ¬ Along (next alone) (Belongs alone) (start Wrapper.emptyMixer 2)
    (twoOutcomes false ++ [changedPlaces false]) := by
  intro h
  have hview : ((run (next alone) (start Wrapper.emptyMixer 2) (twoOutcomes false)).bind fun d =>
      (d.wrapper.fastBody alone (d.step (changedPlaces false))).map fun out =>
        (d.wrapper.triesFast (d.step (changedPlaces false)), d.found (changedPlaces false) 0,
          out.events.filterMap fun e => match e with
            | .mix _ ids accepted => some (ids, accepted)
            | .broadcast _ => none))
      = some (true, some ⟨1, "a", 3⟩, [(["b", "a"], [2, 0])]) := by decide +kernel
  obtain ⟨d, hd, hbody⟩ := Option.bind_eq_some_iff.mp hview
  obtain ⟨out, hout, heq⟩ := Option.map_eq_some_iff.mp hbody
  simp only [Prod.mk.injEq] at heq
  obtain ⟨htries, hfound, hevents⟩ := heq
  have hmem : (["b", "a"], [2, 0]) ∈ out.events.filterMap fun e => match e with
      | .mix _ ids accepted => some (ids, accepted)
      | .broadcast _ => none := by
    rw [hevents]
    exact List.mem_cons_self
  obtain ⟨e, he, hmix⟩ := List.mem_filterMap.mp hmem
  cases e with
  | broadcast draft => cases hmix
  | mix m ids accepted =>
    cases hmix
    rcases h.last hd htries out hout m _ _ he 0 _ 2 rfl rfl with hnone | ⟨rep, hrep, hid, _⟩
    · cases hnone
    · rw [hfound] at hrep
      cases hrep
      exact absurd hid (by decide)

end Device
end SuffixHybrid
