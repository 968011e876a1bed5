import SuffixHybrid.Mixer.Call
import SuffixHybrid.Wrapper.Pipe

/-!
# The totals of the pipe

Between two calls the pipe is new, has the copy of the last call staged, or is stopped (`Stage`). What a
call is served follows from that (`Called`): the array that the last copy has found where the batch is the
same, the current one otherwise, and nothing but current ones from the first failure on. Served totals
never decrease for a request that stays live and never exceed its current total. They are those of the
call before if and only if its copy has found them before the engine wrote the next ones
(`lagged_exact_iff`).
-/

namespace SuffixHybrid
open Lib

/-- A request that stays live keeps its row, and its total does not decrease. -/
lemma Totals.StaysLive.row {a : Totals} {id : ReqId} {t u i : ℕ} (h : a.StaysLive id t u) (htu : t ≤ u)
    (hi : a.owner t i = some id) : a.owner u i = some id ∧ a.total t i ≤ a.total u i := by
  induction u, htu using Nat.le_induction with
  | base => exact ⟨hi, le_rfl⟩
  | succ u htu ih =>
    obtain ⟨howner, hle⟩ := ih fun v htv hvu => h v htv (hvu.trans (Nat.le_succ u))
    obtain ⟨j, hj⟩ := h (u + 1) (htu.trans (Nat.le_succ u)) le_rfl
    obtain rfl := a.keeps u i j id howner hj
    exact ⟨hj, hle.trans (a.appends u i id howner hj)⟩

lemma Totals.StaysLive.mono {a : Totals} {id : ReqId} {t t' u u' : ℕ} (h : a.StaysLive id t u)
    (ht : t ≤ t') (hu : u' ≤ u) : a.StaysLive id t' u' :=
  fun v htv hvu => h v (ht.trans htv) (hvu.trans hu)

namespace Pipe

/-! ## The copies -/

/-- What the pipe has under way. -/
inductive Phase where
  | idle
  | staged
  | stopped
  deriving DecidableEq

/-- A copy is issued when none is under way and absorbed before the next one. Behind a discard there is no
other copy. -/
def Phase.next : Phase → PipeEvent → Option Phase
  | .idle, .enqueue => some .staged
  | .staged, .absorb => some .idle
  | .idle, .discard => some .stopped
  | .staged, .discard => some .stopped
  | _, _ => none

/-- Where the copies of a pipe have got to. -/
def phase (s : Pipe) : Option Phase := run Phase.next .idle s.log

lemma phase_append {s : Pipe} {p : Phase} (h : s.phase = some p) (e : PipeEvent) :
    run Phase.next .idle (s.log ++ [e]) = p.next e := by
  rw [run_append, ← phase, h, Option.bind_some, run_cons]
  cases p.next e <;> rfl

/-- The pipe holds the copy of a call: it is under way, or it has been made at once. -/
structure Staged (cfg : PipeSettings) (a : Totals) (s : Pipe) (y : PipeCall) : Prop where
  armed : s.armed = true
  fallback : s.fallback = false
  pending : s.pending = some ⟨y.ids, y.idx, y.n⟩
  copies : s.copies = if cfg.sim then [] else [⟨y.idx, y.moment⟩]
  staging : cfg.sim = true → ∀ i j, y.idx[i]? = some j → s.staging i = a.total y.moment j
  phase : s.phase = some .staged

/-- The pipe is disabled. -/
structure Stopped (s : Pipe) : Prop where
  fallback : s.fallback = true
  copies : s.copies.length ≤ 1
  phase : s.phase = some .stopped

/-- The pipe between two calls, the last of which is given. -/
inductive Stage (cfg : PipeSettings) (a : Totals) (s : Pipe) : Option PipeCall → Prop where
  | new : s.armed = false → s.fallback = false → s.copies = [] → s.phase = some .idle →
      Stage cfg a s none
  | staged (y : PipeCall) : s.Staged cfg a y → Stage cfg a s (some y)
  | stopped (last : Option PipeCall) : s.Stopped → Stage cfg a s last

/-- The pipe inside a call that has raised: what was under way is still there. -/
structure Raised (s : Pipe) : Prop where
  fallback : s.fallback = false
  copies : s.copies.length ≤ 1
  phase : s.phase = some .idle ∨ s.phase = some .staged

/-- The pipe inside a call that has its totals: nothing is under way. -/
structure Ready (s : Pipe) : Prop where
  armed : s.armed = true
  fallback : s.fallback = false
  copies : s.copies = []
  phase : s.phase = some .idle

lemma Ready.raised {s : Pipe} (h : s.Ready) : s.Raised :=
  ⟨h.fallback, by simp [h.copies], Or.inl h.phase⟩

lemma Staged.raised {cfg : PipeSettings} {a : Totals} {s : Pipe} {y : PipeCall}
    (h : s.Staged cfg a y) : s.Raised where
  fallback := h.fallback
  copies := by
    rw [h.copies]
    split <;> simp
  phase := Or.inr h.phase

/-! ## One call -/

/-- The batch is that of the call before. -/
def SameBatch (y x : PipeCall) : Prop := y.ids = x.ids ∧ y.idx = x.idx

instance (y x : PipeCall) : Decidable (SameBatch y x) := inferInstanceAs (Decidable (_ ∧ _))

/-- What the copy of a call has found when the next call waits for it. -/
def found (cfg : PipeSettings) (a : Totals) (y x : PipeCall) : List ℕ :=
  if cfg.sim then y.current a else y.idx.mapIdx fun i j => a.total (x.reads i) j

/-- The array of a call behind the call `last`. -/
def answer (cfg : PipeSettings) (a : Totals) (last : Option PipeCall) (x : PipeCall) : Served :=
  match last with
  | none => ⟨x.current a, false⟩
  | some y => if SameBatch y x then ⟨found cfg a y x, true⟩ else ⟨x.current a, false⟩

section call
variable {cfg : PipeSettings} {a : Totals} {s : Pipe} {last : Option PipeCall} {x y : PipeCall}

/-- The buffer behind the wait for a copy. -/
lemma Staged.synchronized (h : s.Staged cfg a y) (x : PipeCall) :
    (List.range y.n).map (s.synchronized a x).staging = found cfg a y x := by
  have hlen : y.n = y.idx.length := by simp [PipeCall.n, PipeCall.idx]
  apply List.ext_getElem?
  intro i
  unfold found
  rw [List.getElem?_map]
  cases hsim : cfg.sim with
  | true =>
    rw [if_pos rfl, PipeCall.current, List.getElem?_map]
    have hcopies : s.copies = [] := by rw [h.copies, hsim, if_pos rfl]
    cases hj : y.idx[i]? with
    | none =>
      have hle : y.n ≤ i := by rw [hlen]; exact List.getElem?_eq_none_iff.mp hj
      simp [hle]
    | some j =>
      have hlt : i < y.n := by rw [hlen]; exact (List.getElem?_eq_some_iff.mp hj).1
      have hstaging := h.staging hsim i j hj
      simp [List.getElem?_range hlt, Pipe.synchronized, hcopies, hstaging]
  | false =>
    rw [if_neg Bool.false_ne_true, List.getElem?_mapIdx]
    have hcopies : s.copies = [⟨y.idx, y.moment⟩] := by
      rw [h.copies, hsim, if_neg Bool.false_ne_true]
    cases hj : y.idx[i]? with
    | none =>
      have hle : y.n ≤ i := by rw [hlen]; exact List.getElem?_eq_none_iff.mp hj
      simp [hle]
    | some j =>
      have hlt : i < y.n := by rw [hlen]; exact (List.getElem?_eq_some_iff.mp hj).1
      simp [List.getElem?_range hlt, Pipe.synchronized, hcopies, land, hj]

/-- The absorb of a staged copy. -/
lemma Staged.absorb (h : s.Staged cfg a y) (x : PipeCall) :
    (∃ e s', s.absorb a x ⟨y.ids, y.idx, y.n⟩ = (.error e, s') ∧ s'.Raised ∧ x.calm = false) ∨
      ∃ s', s.absorb a x ⟨y.ids, y.idx, y.n⟩ = (.ok ⟨y.ids, y.idx, found cfg a y x, y.n⟩, s') ∧
        s'.Ready ∧ x.raises .synchronize = none ∧ x.raises .snapshot = none := by
  unfold Pipe.absorb
  cases hsync : x.raises .synchronize with
  | some text =>
    left
    exact ⟨_, _, rfl, h.raised, by simp [PipeCall.calm, hsync]⟩
  | none =>
    cases hsnap : x.raises .snapshot with
    | some text =>
      left
      have hraised : (s.synchronized a x).Raised :=
        ⟨h.fallback, Nat.zero_le _, Or.inr h.phase⟩
      exact ⟨_, _, rfl, hraised, by simp [PipeCall.calm, hsnap]⟩
    | none =>
      right
      refine ⟨_, by simp only [h.synchronized x]; rfl, ?_, rfl, rfl⟩
      exact ⟨h.armed, h.fallback, rfl, phase_append h.phase .absorb⟩

/-- The snapshot of a call is aligned with the same batch. -/
lemma aligned_iff (totals : List ℕ) :
    aligned ⟨y.ids, y.idx, totals, y.n⟩ x = true ↔ SameBatch y x := by
  simp only [aligned, Bool.and_eq_true, decide_eq_true_eq, SameBatch, and_assoc]
  constructor
  · rintro ⟨_, hids, hidx⟩
    exact ⟨hids, hidx⟩
  · rintro ⟨hids, hidx⟩
    exact ⟨by rw [PipeCall.n, PipeCall.n, hids], hids, hidx⟩

/-- The totals of a call. An exception comes from the call. -/
lemma Stage.totals (h : Stage cfg a s last) (hrun : s.fallback = false) (x : PipeCall) :
    (∃ e s', s.totals a x = (.error e, s') ∧ s'.Raised ∧
        ∀ y, last = some y → SameBatch y x → x.calm = false) ∨
      ∃ s', s.totals a x = (.ok (answer cfg a last x), s') ∧ s'.Ready ∧
        ∀ y, last = some y → x.raises .synchronize = none ∧ x.raises .snapshot = none := by
  unfold Pipe.totals
  cases h with
  | new harmed _ hcopies hphase =>
    rw [if_pos harmed]
    cases hread : x.raises .read with
    | some text =>
      left
      exact ⟨_, _, rfl, ⟨hrun, by simp [hcopies], Or.inl hphase⟩, fun y hy => by cases hy⟩
    | none =>
      right
      exact ⟨_, rfl, ⟨rfl, hrun, hcopies, hphase⟩, fun y hy => by cases hy⟩
  | stopped _ hstop =>
    rw [hstop.fallback] at hrun
    cases hrun
  | staged y hy =>
    have harmed : ¬ s.armed = false := by simp [hy.armed]
    rw [if_neg harmed, hy.pending]
    rcases hy.absorb x with ⟨e, s', habsorb, hraised, hcalm⟩ | ⟨s', habsorb, hready, hquiet⟩
    · left
      exact ⟨e, s', by simp only [habsorb], hraised, fun _ _ _ => hcalm⟩
    · simp only [habsorb]
      by_cases hsame : SameBatch y x
      · right
        rw [if_pos ((aligned_iff _).mpr hsame), answer, if_pos hsame]
        exact ⟨s', rfl, hready, fun _ _ => hquiet⟩
      · rw [if_neg fun halign => hsame ((aligned_iff _).mp halign), answer, if_neg hsame]
        cases hread : x.raises .read with
        | some text =>
          left
          refine ⟨_, _, rfl, hready.raised, fun y' hy' hsame' => ?_⟩
          cases hy'
          exact absurd hsame' hsame
        | none =>
          right
          exact ⟨_, rfl, ⟨hready.armed, hready.fallback, hready.copies, hready.phase⟩,
            fun _ _ => hquiet⟩

/-- The copy of a call is issued. -/
lemma Ready.issue (h : s.Ready) (cfg : PipeSettings) (a : Totals) (x : PipeCall) :
    (s.issue cfg a x).Raised ∧
      ∀ p n, p = some ⟨x.ids, x.idx, x.n⟩ →
        ({ s.issue cfg a x with pending := p, steps := n } : Pipe).Staged cfg a x := by
  unfold Pipe.issue
  cases hsim : cfg.sim with
  | true =>
    have hphase : run Phase.next .idle (s.log ++ [.enqueue]) = some .staged := phase_append h.phase .enqueue
    refine ⟨⟨h.fallback, by simp [h.copies], Or.inr hphase⟩, ?_⟩
    rintro p n rfl
    refine ⟨h.armed, h.fallback, rfl, by simp [h.copies, hsim], fun _ i j hj => ?_, hphase⟩
    simp [land, hj]
  | false =>
    have hphase : run Phase.next .idle (s.log ++ [.enqueue]) = some .staged := phase_append h.phase .enqueue
    refine ⟨⟨h.fallback, by simp [h.copies], Or.inr hphase⟩, ?_⟩
    rintro p n rfl
    exact ⟨h.armed, h.fallback, rfl, by simp [h.copies, hsim], fun hsim' => (by simp [hsim] at hsim'), hphase⟩

/-- The enqueue of a call that has its totals. -/
lemma Ready.enqueue (h : s.Ready) (cfg : PipeSettings) (a : Totals) (x : PipeCall) :
    (∃ e s', s.enqueue cfg a x = (.error e, s') ∧ s'.Raised ∧ x.calm = false) ∨
      ∃ s', s.enqueue cfg a x = (.ok (), s') ∧ s'.Staged cfg a x ∧
        x.raises .gather = none ∧ x.raises .record = none := by
  unfold Pipe.enqueue
  obtain ⟨hraised, hstaged⟩ := h.issue cfg a x
  cases hgather : x.raises .gather with
  | some text =>
    left
    exact ⟨_, _, rfl, h.raised, by simp [PipeCall.calm, hgather]⟩
  | none =>
    cases hrecord : x.raises .record with
    | some text =>
      left
      exact ⟨_, _, rfl, hraised, by simp [PipeCall.calm, hrecord]⟩
    | none =>
      right
      exact ⟨_, rfl, hstaged _ _ rfl, rfl, rfl⟩

/-- The `try` block of a call. -/
lemma Stage.attempt (h : Stage cfg a s last) (hrun : s.fallback = false) (x : PipeCall) :
    (∃ e s', s.attempt cfg a x = (.error e, s') ∧ s'.Raised ∧
        ∀ y, last = some y → SameBatch y x → x.calm = false) ∨
      ∃ s', s.attempt cfg a x = (.ok (answer cfg a last x), s') ∧ s'.Staged cfg a x ∧
        ∀ y, last = some y → x.calm = true := by
  unfold Pipe.attempt
  have hraised : s.Raised := by
    cases h with
    | new _ hfallback hcopies hphase => exact ⟨hfallback, by simp [hcopies], Or.inl hphase⟩
    | staged y hy => exact hy.raised
    | stopped _ hstop =>
      rw [hstop.fallback] at hrun
      cases hrun
  cases hcapture : x.capturing with
  | true =>
    left
    exact ⟨_, _, rfl, hraised, fun _ _ _ => by simp [PipeCall.calm, hcapture]⟩
  | false =>
    rw [if_neg Bool.false_ne_true]
    rcases h.totals hrun x with ⟨e, s', htotals, hraised', hcalm⟩ | ⟨s1, htotals, hready, hquiet⟩
    · left
      exact ⟨e, s', by simp only [htotals], hraised', hcalm⟩
    · simp only [htotals]
      rcases hready.enqueue cfg a x with
        ⟨e, s', henqueue, hraised', hcalm⟩ | ⟨s2, henqueue, hstaged, hgather, hrecord⟩
      · left
        exact ⟨e, s', by simp only [henqueue], hraised', fun _ _ _ => hcalm⟩
      · simp only [henqueue]
        cases haccount : x.raises .account with
        | some text =>
          left
          exact ⟨_, _, rfl, hstaged.raised, fun _ _ _ => by simp [PipeCall.calm, haccount]⟩
        | none =>
          right
          refine ⟨s2, rfl, hstaged, fun y hy => ?_⟩
          obtain ⟨hsync, hsnap⟩ := hquiet y hy
          simp [PipeCall.calm, hcapture, hsync, hsnap, hgather, hrecord, haccount]

/-- A failure discards what is under way and stops the pipe. -/
lemma Raised.stop (h : s.Raised) (e : PipeError) :
    (({ s with pending := none, log := s.log ++ [.discard] } : Pipe).fail e).Stopped where
  fallback := rfl
  copies := h.copies
  phase := by
    rcases h.phase with hphase | hphase
    · exact phase_append hphase .discard
    · exact phase_append hphase .discard

/-- A call of `propose` behind the call `last`: the pipe was stopped already, it fails and stops, or it
serves its answer and has the copy of the call staged. -/
inductive Called (cfg : PipeSettings) (a : Totals) (s : Pipe) (last : Option PipeCall) (x : PipeCall) :
    List Served × Pipe → Prop where
  | blocked : s.Stopped → Called cfg a s last x (blocking a x, s)
  | failed {served : List Served} {s' : Pipe} : s.fallback = false →
      (∀ y, last = some y → SameBatch y x → x.calm = false) →
      s'.Stopped → (∀ r ∈ served, r = ⟨x.current a, false⟩) → Called cfg a s last x (served, s')
  | served {s' : Pipe} : s.fallback = false → s'.Staged cfg a x → (∀ y, last = some y → x.calm = true) →
      Called cfg a s last x ([answer cfg a last x], s')

lemma mem_blocking {r : Served} (h : r ∈ blocking a x) : r = ⟨x.current a, false⟩ := by
  unfold blocking at h
  split at h
  · cases h
  · exact List.mem_singleton.mp h

/-- What a call does. -/
theorem Stage.propose (h : Stage cfg a s last) (x : PipeCall) :
    Called cfg a s last x (s.propose cfg a x) := by
  unfold Pipe.propose
  cases hfallback : s.fallback with
  | true =>
    cases h with
    | new _ hrun _ _ => exact absurd (hrun.symm.trans hfallback) Bool.false_ne_true
    | staged y hy => exact absurd (hy.fallback.symm.trans hfallback) Bool.false_ne_true
    | stopped _ hstop => exact Called.blocked hstop
  | false =>
    rw [if_neg Bool.false_ne_true]
    unfold Pipe.get
    rcases h.attempt hfallback x with ⟨e, s1, hattempt, hraised, hcalm⟩ | ⟨s1, hattempt, hstaged, hcalm⟩
    · simp only [hattempt]
      have hstop := hraised.stop e
      cases x.raises .reread with
      | some text => exact Called.failed hfallback hcalm hstop (by simp)
      | none =>
        dsimp only
        split
        · refine Called.failed hfallback hcalm ⟨rfl, hstop.copies, hstop.phase⟩ fun r hr => ?_
          rcases List.mem_cons.mp hr with rfl | hr
          · rfl
          · exact mem_blocking hr
        · exact Called.failed hfallback hcalm ⟨rfl, hstop.copies, hstop.phase⟩ fun r hr =>
            List.mem_singleton.mp hr
    · simp only [hattempt]
      rw [if_neg (by simp [hstaged.fallback])]
      exact Called.served hfallback hstaged hcalm

/-- The pipe behind a call. -/
lemma Called.stage {out : List Served × Pipe} (h : Called cfg a s last x out) :
    Stage cfg a out.2 (some x) := by
  cases h with
  | blocked hstop => exact Stage.stopped _ hstop
  | failed _ _ hstop _ => exact Stage.stopped _ hstop
  | served _ hstaged _ => exact Stage.staged x hstaged

end call

/-! ## Runs -/

/-- The rows of the batch are those of its requests, the calls come in order, and the copy of the last call
finds its entries between the two. -/
structure Faithful (a : Totals) (s : Pipe × Option PipeCall) (x : PipeCall) : Prop where
  nodup : x.ids.Nodup
  owned : ∀ id ∈ x.ids, a.owner x.moment (x.lut id) = some id
  later : ∀ y, s.2 = some y → y.moment ≤ x.moment
  reads : ∀ y, s.2 = some y → ∀ i, y.moment ≤ x.reads i ∧ x.reads i ≤ x.moment

/-- A lagged array is the totals of the call before, which had the same batch. -/
def LaggedExact (cfg : PipeSettings) (a : Totals) (s : Pipe × Option PipeCall) (x : PipeCall) : Prop :=
  ∀ r ∈ (s.1.propose cfg a x).1, r.lagged = true → ∃ y, s.2 = some y ∧ y.ids = x.ids ∧ y.idx = x.idx ∧
    y.n = x.n ∧ r.totals = y.current a

/-- Where a call uses the copy of the call before, the copy has found the totals of that call: it was made
at once, or before the engine has changed them. -/
def Prompt (cfg : PipeSettings) (a : Totals) (s : Pipe × Option PipeCall) (x : PipeCall) : Prop :=
  cfg.sim = false → s.1.fallback = false → x.calm = true → ∀ y, s.2 = some y → SameBatch y x →
    ∀ i j, y.idx[i]? = some j → a.total (x.reads i) j = a.total y.moment j

/-- A disabled pipe stays disabled, and a call that leaves it disabled is served current reads only. -/
def FailsClosed (cfg : PipeSettings) (a : Totals) (s : Pipe × Option PipeCall) (x : PipeCall) : Prop :=
  (s.1.fallback = true → (s.1.propose cfg a x).2.fallback = true) ∧
    ((s.1.propose cfg a x).2.fallback = true →
      ∀ r ∈ (s.1.propose cfg a x).1, r = ⟨x.current a, false⟩)

/-- A total as a call has served it, with the moment of the call and that of the call before. -/
structure Entry where
  moment : ℕ
  since : ℕ
  id : ReqId
  value : ℕ

/-- The totals that a call serves. -/
def entries (cfg : PipeSettings) (a : Totals) (s : Pipe × Option PipeCall) (x : PipeCall) : List Entry :=
  (s.1.propose cfg a x).1.flatMap fun r => (x.ids.zip r.totals).map fun e =>
    { moment := x.moment, since := (s.2.map (·.moment)).getD x.moment, id := e.1, value := e.2 }

/-- A served total is the one of its request at some moment since the call before, if the request stayed
live since then. -/
def Entry.Timely (a : Totals) (e : Entry) : Prop :=
  e.since ≤ e.moment ∧ ∃ i, a.owner e.moment i = some e.id ∧ (a.StaysLive e.id e.since e.moment →
    ∃ u, e.since ≤ u ∧ u ≤ e.moment ∧ a.owner u i = some e.id ∧ e.value = a.total u i)

/-- The total of a request that stays live does not decrease from one entry to the other. -/
def Entry.Grows (a : Totals) (e f : Entry) : Prop :=
  e.id = f.id → a.StaysLive e.id e.since f.moment → e.value ≤ f.value

section runs
variable {cfg : PipeSettings} {a : Totals} {s : Pipe × Option PipeCall} {x : PipeCall}

/-- A timely total does not exceed the current one. -/
lemma Entry.Timely.le_current {e : Entry} (h : e.Timely a) (hlive : a.StaysLive e.id e.since e.moment)
    {i : ℕ} (hi : a.owner e.moment i = some e.id) : e.value ≤ a.total e.moment i := by
  obtain ⟨_, j, hj, hvalue⟩ := h
  obtain ⟨u, hsince, hu, howner, heq⟩ := hvalue hlive
  obtain rfl := a.unique e.moment i j e.id hi hj
  rw [heq]
  exact ((hlive.mono hsince le_rfl).row hu howner).2

/-- Timely totals of a request that stays live grow from call to call. -/
lemma Entry.Timely.grows {e f : Entry} (he : e.Timely a) (hf : f.Timely a) (h : e.moment ≤ f.since) :
    e.Grows a f := by
  intro hid hlive
  obtain ⟨hesince, i, hi, hevalue⟩ := he
  obtain ⟨hfsince, j, hj, hfvalue⟩ := hf
  obtain ⟨u, hsu, hu, howner, heq⟩ := hevalue (hlive.mono le_rfl (h.trans hfsince))
  obtain ⟨v, hsv, hv, howner', heq'⟩ :=
    hfvalue (by rw [← hid]; exact hlive.mono (hesince.trans h) le_rfl)
  have huv : u ≤ v := hu.trans (h.trans hsv)
  obtain ⟨hmoved, hle⟩ := (hlive.mono hsu hv).row huv howner
  have hsame : i = j := a.unique v i j e.id hmoved (by rw [hid]; exact howner')
  rw [heq, heq', ← hsame]
  exact hle

/-- What the copy of the last call has found, entry by entry. -/
lemma getElem?_found (y x : PipeCall) (i : ℕ) : (found cfg a y x)[i]? =
    (y.idx[i]?).map fun j => if cfg.sim then a.total y.moment j else a.total (x.reads i) j := by
  unfold found
  split
  · rw [PipeCall.current, List.getElem?_map]
  · rw [List.getElem?_mapIdx]

/-- The array that a call serves is current, or what the copy of the last call has found. -/
lemma Called.cases {last : Option PipeCall} {out : List Served × Pipe} {p : Pipe}
    (h : Called cfg a p last x out) : (∀ r ∈ out.1, r = ⟨x.current a, false⟩) ∨
      ∃ y, last = some y ∧ SameBatch y x ∧ p.fallback = false ∧ x.calm = true ∧
        out.1 = [⟨found cfg a y x, true⟩] ∧ out.2.fallback = false := by
  cases h with
  | blocked _ => exact Or.inl fun r hr => mem_blocking hr
  | failed _ _ _ hall => exact Or.inl hall
  | served hrun hstaged hcalm =>
    cases last with
    | none => exact Or.inl fun r hr => List.mem_singleton.mp hr
    | some y =>
      by_cases hsame : SameBatch y x
      · exact Or.inr ⟨y, rfl, hsame, hrun, hcalm y rfl, by rw [answer, if_pos hsame], hstaged.fallback⟩
      · left
        intro r hr
        rw [List.mem_singleton.mp hr, answer, if_neg hsame]

/-- A call fails closed. -/
lemma Stage.failsClosed (h : Stage cfg a s.1 s.2) (x : PipeCall) : FailsClosed cfg a s x := by
  have hcall := h.propose x
  unfold FailsClosed
  generalize s.1.propose cfg a x = out at hcall ⊢
  refine ⟨fun hfallback => ?_, fun hfallback => ?_⟩
  · cases hcall with
    | blocked hstop => exact hstop.fallback
    | failed _ _ hstop _ => exact hstop.fallback
    | served hrun _ _ => exact absurd (hrun.symm.trans hfallback) Bool.false_ne_true
  · rcases hcall.cases with hall | ⟨y, _, _, _, _, _, hrun⟩
    · exact hall
    · exact absurd (hrun.symm.trans hfallback) Bool.false_ne_true

/-- A call serves the totals of the call before exactly if the copy was prompt. -/
lemma Stage.laggedExact_iff (h : Stage cfg a s.1 s.2) (x : PipeCall) :
    LaggedExact cfg a s x ↔ Prompt cfg a s x := by
  have hcall := h.propose x
  unfold LaggedExact
  generalize s.1.propose cfg a x = out at hcall ⊢
  constructor
  · intro hexact hsim hfallback hcalm y hy hsame i j hj
    have hout : out.1 = [⟨found cfg a y x, true⟩] := by
      cases hcall with
      | blocked hstop => exact absurd (hfallback.symm.trans hstop.fallback) Bool.false_ne_true
      | failed _ hraises _ _ => exact absurd ((hraises y hy hsame).symm.trans hcalm) Bool.false_ne_true
      | served _ _ _ => rw [hy, answer, if_pos hsame]
    obtain ⟨y', hy', _, _, _, heq⟩ := hexact ⟨found cfg a y x, true⟩ (by rw [hout]; simp) rfl
    cases hy.symm.trans hy'
    have hentry := congrArg (fun l => l[i]?) heq
    dsimp only at hentry
    rw [getElem?_found, PipeCall.current, List.getElem?_map, hj, hsim] at hentry
    simpa using hentry
  · intro hprompt r hr hlagged
    rcases hcall.cases with hall | ⟨y, hy, hsame, hrun, hcalm, hout, _⟩
    · rw [hall r hr] at hlagged
      cases hlagged
    · rw [hout, List.mem_singleton] at hr
      refine ⟨y, hy, hsame.1, hsame.2, by rw [PipeCall.n, PipeCall.n, hsame.1], ?_⟩
      apply List.ext_getElem?
      intro i
      rw [hr, getElem?_found, PipeCall.current, List.getElem?_map]
      cases hj : y.idx[i]? with
      | none => rfl
      | some j =>
        cases hsim : cfg.sim with
        | true => rfl
        | false =>
          have hread := hprompt hsim hrun hcalm y hy hsame i j hj
          simp [hread]

/-- Every total that a call serves is timely. -/
lemma Stage.timely (h : Stage cfg a s.1 s.2) (hx : Faithful a s x) {e : Entry}
    (he : e ∈ entries cfg a s x) : e.Timely a ∧ e.moment = x.moment ∧
      e.since = (s.2.map (·.moment)).getD x.moment := by
  obtain ⟨r, hr, he⟩ := List.mem_flatMap.mp he
  obtain ⟨⟨id, value⟩, hmem, rfl⟩ := List.mem_map.mp he
  refine ⟨?_, rfl, rfl⟩
  obtain ⟨i, hi⟩ := List.mem_iff_getElem?.mp hmem
  obtain ⟨hid, hvalue⟩ := List.getElem?_zip_eq_some.mp hi
  have howner := hx.owned id (List.mem_of_getElem? hid)
  have hidx : x.idx[i]? = some (x.lut id) := by rw [PipeCall.idx, List.getElem?_map, hid, Option.map_some]
  have hsince : (s.2.map (·.moment)).getD x.moment ≤ x.moment := by
    cases hlast : s.2 with
    | none => exact le_rfl
    | some y => exact hx.later y hlast
  refine ⟨hsince, x.lut id, howner, fun hlive => ?_⟩
  rcases (h.propose x).cases with hall | ⟨y, hy, hsame, _, _, hout, _⟩
  · have hcurrent : value = a.total x.moment (x.lut id) := by
      rw [hall r hr, PipeCall.current, List.getElem?_map, hidx, Option.map_some] at hvalue
      exact (Option.some.inj hvalue).symm
    exact ⟨x.moment, hsince, le_rfl, howner, hcurrent⟩
  · rw [hout, List.mem_singleton] at hr
    rw [hr, getElem?_found, hsame.2, hidx, Option.map_some, Option.some.injEq] at hvalue
    dsimp only at hlive ⊢
    simp only [hy, Option.map_some, Option.getD_some] at hlive ⊢
    -- the request had its row at the call before already
    have hrow (u : ℕ) (hle : y.moment ≤ u) (hu : u ≤ x.moment) : a.owner u (x.lut id) = some id := by
      obtain ⟨j, hj⟩ := hlive u hle hu
      have hmoved := ((hlive.mono hle le_rfl).row hu hj).1
      obtain rfl := a.unique x.moment j (x.lut id) id hmoved howner
      exact hj
    cases hsim : cfg.sim with
    | true =>
      rw [hsim, if_pos rfl] at hvalue
      exact ⟨y.moment, le_rfl, hx.later y hy, hrow _ le_rfl (hx.later y hy), hvalue.symm⟩
    | false =>
      rw [hsim, if_neg Bool.false_ne_true] at hvalue
      obtain ⟨hle, hu⟩ := hx.reads y hy i
      exact ⟨x.reads i, hle, hu, hrow _ hle hu, hvalue.symm⟩

/-- The totals that one call serves do not decrease. -/
lemma Stage.entries_pairwise (h : Stage cfg a s.1 s.2) (hx : Faithful a s x) :
    (entries cfg a s x).Pairwise (Entry.Grows a) := by
  rcases (h.propose x).cases with hall | ⟨y, _, _, _, _, hout, _⟩
  · -- all of them are current
    have hcurrent (e : Entry) (he : e ∈ entries cfg a s x) : e.value = a.total x.moment (x.lut e.id) := by
      obtain ⟨r, hr, he⟩ := List.mem_flatMap.mp he
      obtain ⟨⟨id, value⟩, hmem, rfl⟩ := List.mem_map.mp he
      obtain ⟨i, hi⟩ := List.mem_iff_getElem?.mp hmem
      obtain ⟨hid, hvalue⟩ := List.getElem?_zip_eq_some.mp hi
      rw [hall r hr, PipeCall.current, PipeCall.idx, List.map_map, List.getElem?_map, hid] at hvalue
      exact (Option.some.inj hvalue).symm
    apply List.pairwise_of_forall_mem_list
    intro e he f hf hid _
    rw [hcurrent e he, hcurrent f hf, hid]
  · rw [entries, hout, List.flatMap_singleton, List.pairwise_map]
    have hfst : ((x.ids.zip (found cfg a y x)).map Prod.fst).Nodup :=
      hx.nodup.sublist (zip_fst_sublist _ _)
    exact (List.pairwise_map.mp hfst).imp fun hne hid => absurd hid hne

/-- The totals of a run are timely, none is from before the call at which the run starts, and they grow. -/
lemma Stage.along (h : Stage cfg a s.1 s.2) {xs : List PipeCall}
    (hxs : Along (remembering (next cfg a)) (Faithful a) s xs) :
    (∀ e ∈ collect (remembering (next cfg a)) (entries cfg a) s xs,
        e.Timely a ∧ ∀ y, s.2 = some y → y.moment ≤ e.since) ∧
      (collect (remembering (next cfg a)) (entries cfg a) s xs).Pairwise (Entry.Grows a) := by
  induction xs generalizing s with
  | nil => exact ⟨by simp, List.Pairwise.nil⟩
  | cons x xs ih =>
    obtain ⟨hx, hrest⟩ := hxs
    have hnext : remembering (next cfg a) s x = some ((s.1.propose cfg a x).2, some x) := rfl
    obtain ⟨htimely, hgrow⟩ := ih (h.propose x).stage (hrest _ hnext)
    rw [collect_cons (entries cfg a) hnext]
    constructor
    · intro e he
      rcases List.mem_append.mp he with hfirst | hlater
      · obtain ⟨ht, _, hsince⟩ := h.timely hx hfirst
        refine ⟨ht, fun y hy => ?_⟩
        rw [hsince, hy]
        exact le_rfl
      · obtain ⟨ht, hsince⟩ := htimely e hlater
        exact ⟨ht, fun y hy => (hx.later y hy).trans (hsince x rfl)⟩
    · rw [List.pairwise_append]
      refine ⟨h.entries_pairwise hx, hgrow, fun e he f hf => ?_⟩
      obtain ⟨ht, hmoment, _⟩ := h.timely hx he
      obtain ⟨ht', hsince⟩ := htimely f hf
      exact ht.grows ht' (by rw [hmoment]; exact hsince x rfl)

/-- At most one copy is under way, and the copies were issued and absorbed in turn. -/
lemma Stage.disciplined {p : Pipe} {last : Option PipeCall} (h : Stage cfg a p last) :
    p.copies.length ≤ 1 ∧ p.phase.isSome = true := by
  cases h with
  | new _ _ hcopies hphase => exact ⟨by simp [hcopies], by simp [hphase]⟩
  | staged y hy => exact ⟨hy.raised.copies, by simp [hy.phase]⟩
  | stopped _ hstop => exact ⟨hstop.copies, by simp [hstop.phase]⟩

lemma stage_start (cfg : PipeSettings) (a : Totals) : Stage cfg a start none :=
  Stage.new rfl rfl rfl rfl

end runs

/-- Every run of the pipe ends with at most one copy under way, has issued and absorbed its copies in turn,
serves totals that never decrease for a request that stays live and never exceed its current total, and
fails closed. Its lagged arrays are the totals of the call before exactly if the copies it uses are
prompt. -/
theorem lagged_exact_iff {cfg : PipeSettings} {a : Totals} {xs : List PipeCall}
    (h : Along (remembering (next cfg a)) (Faithful a) (start, none) xs) :
    (∃ s, run (next cfg a) start xs = some s ∧ s.copies.length ≤ 1 ∧ s.phase.isSome = true) ∧
      (collect (remembering (next cfg a)) (entries cfg a) (start, none) xs).Pairwise (Entry.Grows a) ∧
      (∀ e ∈ collect (remembering (next cfg a)) (entries cfg a) (start, none) xs,
        a.StaysLive e.id e.since e.moment → ∀ i, a.owner e.moment i = some e.id →
          e.value ≤ a.total e.moment i) ∧
      Along (remembering (next cfg a)) (FailsClosed cfg a) (start, none) xs ∧
      (Along (remembering (next cfg a)) (LaggedExact cfg a) (start, none) xs ↔
        Along (remembering (next cfg a)) (Prompt cfg a) (start, none) xs) := by
  have hstage : Stage cfg a (start, (none : Option PipeCall)).1 (start, (none : Option PipeCall)).2 :=
    stage_start cfg a
  have hstep (s : Pipe × Option PipeCall) (x : PipeCall) (hs : Stage cfg a s.1 s.2) :
      ∀ s', remembering (next cfg a) s x = some s' → Stage cfg a s'.1 s'.2 := by
    rintro s' hs'
    cases hs'
    exact (hs.propose x).stage
  obtain ⟨htimely, hgrow⟩ := hstage.along h
  refine ⟨?_, hgrow, fun e he hlive i hi => (htimely e he).1.le_current hlive hi, ?_, ?_⟩
  · obtain ⟨s, hrun, last, hs⟩ := run_total (fun s x (hs : ∃ last, Stage cfg a s last) => by
      obtain ⟨last, hs⟩ := hs
      exact ⟨_, rfl, some x, (hs.propose x).stage⟩) ⟨none, stage_start cfg a⟩ xs
    exact ⟨s, hrun, hs.disciplined⟩
  · exact Along.imp (fun s x hs _ => ⟨hs.failsClosed x, hstep s x hs⟩) hstage h
  · exact Along.iff (fun s x hs _ => ⟨hs.laggedExact_iff x, hstep s x hs⟩) hstage h

/-- A request in row 0 whose total grows by two at every moment. -/
def growingTotals : Totals where
  owner _ i := if i = 0 then some "a" else none
  total t _ := 2 * t + 2
  appends t i id _ _ := Nat.add_le_add_right (Nat.mul_le_mul_left 2 (Nat.le_succ t)) 2
  unique t i j id hi hj := by
    split at hi <;> split at hj <;> simp_all
  keeps t i j id hi hj := by
    split at hi <;> split at hj <;> simp_all

/-- Two calls for the request. The copy of the first one is made at a moment. -/
def twoCalls (copied : ℕ) : List PipeCall :=
  [{ moment := 0, ids := ["a"], lut := fun _ => 0, capturing := false, reads := fun _ => 0,
     raises := fun _ => none },
    { moment := 1, ids := ["a"], lut := fun _ => 0, capturing := false, reads := fun _ => copied,
      raises := fun _ => none }]

lemma faithful_twoCalls (cfg : PipeSettings) {copied : ℕ} (h : copied ≤ 1) :
    Along (remembering (next cfg growingTotals)) (Faithful growingTotals) (start, none)
      (twoCalls copied) := by
  have howned (t : ℕ) : ∀ id ∈ ["a"], growingTotals.owner t 0 = some id := by
    intro id hid
    rw [List.mem_singleton.mp hid]
    rfl
  refine ⟨⟨List.nodup_singleton _, howned 0, by simp, by simp⟩, ?_⟩
  rintro s' hs'
  cases hs'
  refine ⟨⟨List.nodup_singleton _, howned 1, ?_, ?_⟩, fun _ _ => trivial⟩
  · rintro y hy
    cases hy
    exact Nat.zero_le 1
  · rintro y hy i
    cases hy
    exact ⟨Nat.zero_le copied, h⟩

/-- The pipe on CUDA, with the late call site. -/
def onCuda : PipeSettings := { early := false, sim := false }

/-- A prompt copy serves the total of the first call to the second one. -/
theorem lagged_exact_iff_prompt :
    Along (remembering (next onCuda growingTotals)) (LaggedExact onCuda growingTotals) (start, none)
      (twoCalls 0) := by
  refine (lagged_exact_iff (faithful_twoCalls onCuda (Nat.zero_le 1))).2.2.2.2.mpr ?_
  refine ⟨fun _ _ _ y hy => (by cases hy), ?_⟩
  rintro s' hs'
  cases hs'
  refine ⟨?_, fun _ _ => trivial⟩
  rintro _ _ _ y hy _ i j _
  cases hy
  rfl

/-- The copy of the first call is made when the engine has written the totals of the next step already:
the second call is served these, and not those of the call before. -/
theorem late_copy_served :
    Along (remembering (next onCuda growingTotals)) (Faithful growingTotals) (start, none) (twoCalls 1) ∧
      ¬ Along (remembering (next onCuda growingTotals)) (LaggedExact onCuda growingTotals) (start, none)
        (twoCalls 1) := by
  refine ⟨faithful_twoCalls onCuda le_rfl, fun h => ?_⟩
  obtain ⟨y, hy, _, _, _, heq⟩ := (h.2 _ rfl).1 ⟨[4], true⟩ (by decide) rfl
  cases hy
  exact absurd heq (by decide)

end Pipe
end SuffixHybrid
