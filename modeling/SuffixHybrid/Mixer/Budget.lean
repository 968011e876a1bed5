import SuffixHybrid.Mixer.Accounting
import SuffixHybrid.Mixer.Estimate

/-!
# Full acceptance and the budget

A request whose whole proposal was accepted is to keep its budget: the slots behind the published
ones were never verified and are no evidence against it. The feedback pass puts the estimate to the
published width instead. That width is below the budget where the native draft is short, the model
length is near or the spliced tail ends early, and then the accepted proposal takes the estimate down
with it: `keeps_estimates_iff` says over whole runs that this happens exactly there.
-/

namespace SuffixHybrid
open Lib

namespace HybridMixer

/-- The feedback on a proposal of at least one token accepts all of it. -/
def AcceptedInFull (p : Previous) (a : ℤ) : Prop := 0 < p.length ∧ a = p.length

/-- The feedback pass of a call lowers no estimate of a request whose proposal it accepts in full. -/
def KeepsEstimates [F64] (s : HybridMixer) (ids : List ReqId) (accepted : Option (List ℤ)) : Prop :=
  ∀ id p, s.previous.lookup id = some p → AcceptedInFull p (feedbackOf ids accepted id) →
    ∃ q, (s.feedback ids accepted).previous.lookup id = some q ∧
      p.acceptEstimate ≤ q.acceptEstimate

/-- Every proposal that a call accepts in full was published at the width of its budget, or wider. -/
def AcceptsFullWidth [F64] (s : HybridMixer) (ids : List ReqId) (accepted : Option (List ℤ)) :
    Prop :=
  ∀ id p, s.previous.lookup id = some p → AcceptedInFull p (feedbackOf ids accepted id) →
    s.pick (some p.acceptEstimate) ≤ p.length

/-- Full acceptance puts the estimate to the published width. -/
lemma gradeAt_of_full [F64] {p : Previous} {a : ℤ} (h : AcceptedInFull p a) :
    (gradeAt a p).acceptEstimate = F64.ofNat p.length := by
  obtain ⟨hpos, rfl⟩ := h
  have hnonneg : ¬ ((p.length : ℤ) < 0) := by omega
  simp [gradeAt, hnonneg, grade, hpos]

/-- The budget of an estimate is within a width exactly if the estimate is. -/
lemma pick_le_iff {s : HybridMixer} {e : ℚ} (h : 0 ≤ e ∧ e ≤ s.k) {n : ℕ} (hn : 0 < n) :
    s.pick (some e) ≤ n ↔ e ≤ n := by
  have hceil : F64.ceilUsize e ≤ s.k := by
    rw [F64.ceilUsize, Int.toNat_le, Int.ceil_le]
    exact_mod_cast h.2
  have hpick : s.pick (some e) = max 1 (F64.ceilUsize e) := by
    rw [pick, Option.getD_some, Nat.min_eq_left hceil]
  rw [hpick, max_le_iff, F64.ceilUsize, Int.toNat_le, Int.ceil_le]
  constructor
  · rintro ⟨_, hle⟩
    exact_mod_cast hle
  · intro hle
    exact ⟨hn, by exact_mod_cast hle⟩

/-- One feedback on a proposal that is accepted in full. -/
lemma estimate_le_iff {s : HybridMixer} {k : ℕ} (hest : s.Estimates k) (hinv : s.Inv)
    {ids : List ReqId} (hids : ids.Nodup) {accepted : Option (List ℤ)} {id : ReqId} {p : Previous}
    (hp : s.previous.lookup id = some p) (hfull : AcceptedInFull p (feedbackOf ids accepted id)) :
    ∃ q, (s.feedback ids accepted).previous.lookup id = some q ∧
      (p.acceptEstimate ≤ q.acceptEstimate ↔ s.pick (some p.acceptEstimate) ≤ p.length) := by
  have hlen : p.length ≤ 64 := by
    have h1 := (hinv.previous id p hp).length_le
    have h2 := hest.k_eq
    have h3 := hest.k_le
    omega
  have hbound : 0 ≤ p.acceptEstimate ∧ p.acceptEstimate ≤ s.k := by
    rw [hest.k_eq]
    exact hest.between id p hp
  refine ⟨gradeAt (feedbackOf ids accepted id) p, ?_, ?_⟩
  · rw [feedback_lookup s hids, hp, Option.map_some]
  · rw [gradeAt_of_full hfull, ofNat_eq hlen, pick_le_iff hbound hfull.1]

/-- A call keeps the estimates exactly if it accepts no narrow proposal in full. -/
lemma keepsEstimates_iff {s : HybridMixer} {k : ℕ} (hest : s.Estimates k) (hinv : s.Inv)
    {ids : List ReqId} (hids : ids.Nodup) (accepted : Option (List ℤ)) :
    s.KeepsEstimates ids accepted ↔ s.AcceptsFullWidth ids accepted := by
  constructor
  · intro h id p hp hfull
    obtain ⟨q, hq, hle⟩ := h id p hp hfull
    obtain ⟨q', hq', hiff⟩ := estimate_le_iff hest hinv hids hp hfull
    rw [hq] at hq'
    cases hq'
    exact hiff.mp hle
  · intro h id p hp hfull
    obtain ⟨q, hq, hiff⟩ := estimate_le_iff hest hinv hids hp hfull
    exact ⟨q, hq, hiff.mpr (h id p hp hfull)⟩

/-- In a run from a new mixer every full acceptance keeps the estimate of its request exactly if every
proposal that is accepted in full was published at the width of its budget. At every state of a run
this holds request by request. -/
theorem keeps_estimates_iff {cfg : Config} {env : MixerEnv} {k maxModelLen : ℕ} {s : HybridMixer}
    (hnew : HybridMixer.new cfg env k maxModelLen = .ok s) (ops : List Op) :
    (Along KeepsEstimates s ops ↔ Along AcceptsFullWidth s ops) ∧
    ∀ s', run op s ops = some s' → ∀ o ids src natives accepted,
      s'.Accepts o ids src natives accepted → ∀ id p, s'.previous.lookup id = some p →
      AcceptedInFull p (feedbackOf ids accepted id) →
      ∃ q, (s'.feedback ids accepted).previous.lookup id = some q ∧
        (p.acceptEstimate ≤ q.acceptEstimate ↔ s'.pick (some p.acceptEstimate) ≤ p.length) := by
  have hinv := inv_new hnew
  have hest : s.Estimates k := by
    unfold HybridMixer.new at hnew
    split at hnew
    case isFalse => cases hnew
    case isTrue hargs =>
      obtain rfl := Except.ok.inj hnew
      exact estimates_empty cfg env maxModelLen hargs.1.1 hargs.1.2
  refine ⟨?_, fun s' hrun o ids src natives accepted hacc id p hp hfull => ?_⟩
  · rw [along_iff_atCalls, along_iff_atCalls]
    refine Lib.Along.iff_of_inv (fun t operation (ht : t.Inv ∧ t.Estimates k) => ?_) ⟨hinv, hest⟩ ops
    obtain ⟨htinv, htest⟩ := ht
    refine ⟨?_, fun _ t' hop => ⟨htinv.op hop, htest.step htinv hop⟩⟩
    constructor
    · intro h o ids src natives accepted hop hacc
      exact (keepsEstimates_iff htest htinv hacc.args.nodup accepted).mp
        (h o ids src natives accepted hop hacc)
    · intro h o ids src natives accepted hop hacc
      exact (keepsEstimates_iff htest htinv hacc.args.nodup accepted).mpr
        (h o ids src natives accepted hop hacc)
  · have hinv' : s'.Inv := run_inv (fun _ _ _ hi hop => hi.op hop) hinv hrun
    exact estimate_le_iff (hest.along hinv hrun) hinv' hacc.args.nodup hp hfull

/-- A request whose first native draft is a single token. -/
def shortNativeOps : List Op :=
  [.call (HashOrder.stored ReqId) ["a"] (.lists [[1, 2]]) [[7]] none]

/-- The run of one call, and what the theorem says of it. -/
theorem keeps_estimates_iff_short :
    Along KeepsEstimates (empty (Config.ofN 1 (by decide)) {} 3 100 (by decide)) shortNativeOps ↔
      Along AcceptsFullWidth (empty (Config.ofN 1 (by decide)) {} 3 100 (by decide))
        shortNativeOps :=
  (keeps_estimates_iff (show new (Config.ofN 1 (by decide)) {} 3 100
    = .ok (empty (Config.ofN 1 (by decide)) {} 3 100 (by decide)) from rfl) shortNativeOps).1

/-- With room for three tokens the request publishes its native draft of one. The verifier accepts it,
and the estimate drops from three to one. -/
theorem full_acceptance_shrinks :
    ∃ s s' : HybridMixer, Reachable s ∧
      s.call (HashOrder.stored ReqId) ["a"] (.lists [[1, 2, 7, 8]]) [[9, 9, 9]] (some [1])
        = some (.ok [[9, 9, 9]], s') ∧
      ∃ p q, s.previous.lookup "a" = some p ∧
        (s.feedback ["a"] (some [1])).previous.lookup "a" = some q ∧
        AcceptedInFull p (feedbackOf ["a"] (some [1]) "a") ∧
        p.acceptEstimate = 3 ∧ q.acceptEstimate = 1 ∧ ¬ p.acceptEstimate ≤ q.acceptEstimate := by
  obtain ⟨s, s', hs, hcall, hview⟩ := Reachable.exists_call (Config.ofN 1 (by decide)) {} 3 100
    (by decide) (by decide) shortNativeOps (HashOrder.stored ReqId) ["a"] (.lists [[1, 2, 7, 8]])
    [[9, 9, 9]] (some [1]) [[9, 9, 9]]
    (fun s _ => (s.previous.lookup "a").any fun p : Previous =>
      ((s.feedback ["a"] (some [1])).previous.lookup "a").any fun q : Previous =>
        decide (p.length = 1 ∧ p.acceptEstimate = 3 ∧ q.acceptEstimate = 1)) true
    (by with_unfolding_all decide)
  obtain ⟨p, hp, hq⟩ := (Option.any_eq_true _ _).mp hview
  obtain ⟨q, hq, heq⟩ := (Option.any_eq_true _ _).mp hq
  obtain ⟨hlength, hthree, hone⟩ := of_decide_eq_true heq
  refine ⟨s, s', hs, hcall, p, q, hp, hq, ⟨by omega, ?_⟩, hthree, hone, ?_⟩
  · rw [hlength]
    decide
  · rw [hthree, hone]
    norm_num

end HybridMixer
end SuffixHybrid
