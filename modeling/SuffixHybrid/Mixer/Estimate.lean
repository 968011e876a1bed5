import SuffixHybrid.Mixer.Align

/-!
# The suffix estimate

The suffix estimate of a request is to average the accepted tokens of its verified tails
(`verifiedEstimate`); a tail behind a rejected native token is censored. The feedback pass does it
the other way round: it grades a tail exactly when it was not reached, with zero, and skips the
verified ones. `grades_verified_iff` says over whole runs what that leaves of the purpose: the
estimates are right as long as no proposal with a tail gets any feedback.
-/

namespace SuffixHybrid
open Lib

namespace HybridMixer

/-- The estimate after feedback on a proposal with a tail, as its purpose has it: a tail that was
reached counts with its accepted tokens, a censored tail does not count. -/
def verifiedEstimate [F64] (p : Previous) (accepted : ℕ) : Option ℚ :=
  if min (accepted + 1) p.length > p.native then
    let got := F64.ofNat (accepted - p.native)
    some (match p.suffixEstimate with
      | some e => ewma e got
      | none => got)
  else p.suffixEstimate

/-- The feedback pass of a call grades verified tails only. -/
def GradesVerified [F64] (s : HybridMixer) (ids : List ReqId) (accepted : Option (List ℤ)) : Prop :=
  ∀ id p, s.previous.lookup id = some p → p.native < p.length → 0 ≤ feedbackOf ids accepted id →
    ∃ q, (s.feedback ids accepted).previous.lookup id = some q ∧
      q.suffixEstimate = verifiedEstimate p (feedbackOf ids accepted id).toNat

/-- No proposal with a tail gets feedback in a call. -/
def NoTailGraded (s : HybridMixer) (ids : List ReqId) (accepted : Option (List ℤ)) : Prop :=
  ∀ id p, s.previous.lookup id = some p → p.native < p.length → feedbackOf ids accepted id < 0

/-- Every accepted call of a run has a property, on the mixer before it. -/
def Along [F64] (P : HybridMixer → List ReqId → Option (List ℤ) → Prop) :
    HybridMixer → List Op → Prop
  | _, [] => True
  | s, operation :: ops =>
    (∀ o ids src natives accepted, operation = .call o ids src natives accepted →
      s.Accepts o ids src natives accepted → P s ids accepted) ∧
    ∀ s', s.op operation = some s' → Along P s' ops

/-- An operation that is an accepted call has a property. -/
def AtCalls [F64] (P : HybridMixer → List ReqId → Option (List ℤ) → Prop) (s : HybridMixer)
    (operation : Op) : Prop :=
  ∀ o ids src natives accepted, operation = .call o ids src natives accepted →
    s.Accepts o ids src natives accepted → P s ids accepted

lemma along_iff_atCalls [F64] {P : HybridMixer → List ReqId → Option (List ℤ) → Prop}
    {s : HybridMixer} {ops : List Op} : Along P s ops ↔ Lib.Along op (AtCalls P) s ops := by
  induction ops generalizing s with
  | nil => exact Iff.rfl
  | cons operation ops ih => exact and_congr_right fun _ => forall₂_congr fun s' _ => ih

/-- No request has a suffix estimate. -/
def Ungraded (s : HybridMixer) : Prop :=
  ∀ id p, s.previous.lookup id = some p → p.suffixEstimate = none

/-- A proposal without a tail keeps its estimate. -/
lemma gradeAt_of_no_tail [F64] {p : Previous} {k : ℕ} (h : p.WF k) (hno : ¬ p.native < p.length)
    (a : ℤ) : (gradeAt a p).suffixEstimate = p.suffixEstimate := by
  have hhad : p.hadSuffix = false := by
    rw [h.hadSuffix]
    simpa using hno
  unfold gradeAt grade
  split
  · rfl
  · split
    · simp [gradeSuffix, hhad]
    · rfl

/-- The first feedback on a proposal with a tail is graded the wrong way. -/
lemma gradeAt_ne_verified [F64] {p : Previous} {k : ℕ} (h : p.WF k) (htail : p.native < p.length)
    (hnone : p.suffixEstimate = none) {a : ℤ} (ha : 0 ≤ a) :
    (gradeAt a p).suffixEstimate ≠ verifiedEstimate p a.toNat := by
  have hhad : p.hadSuffix = true := by
    rw [h.hadSuffix]
    simpa using htail
  have hgrade : (gradeAt a p).suffixEstimate = gradeSuffix p a.toNat := by
    rw [gradeAt, if_neg (not_lt.mpr ha), grade, if_pos (by omega)]
  rw [hgrade]
  by_cases hreached : p.native ≤ a.toNat
  · -- the tail was reached: the code skips it
    have hskip : ¬ min a.toNat p.native < p.native := by omega
    have htested : min (a.toNat + 1) p.length > p.native := by omega
    simp [gradeSuffix, hskip, verifiedEstimate, htested, hnone]
  · -- the tail is censored: the code grades it with zero
    have hgraded : min a.toNat p.native < p.native := by omega
    have htested : ¬ min (a.toNat + 1) p.length > p.native := by omega
    simp only [gradeSuffix, hhad, hgraded, hnone, verifiedEstimate, htested, and_self, if_true,
      if_false]
    simp

/-- On a mixer without estimates a call grades verified tails only if it grades none. -/
lemma gradesVerified_iff [F64] {s : HybridMixer} (hinv : s.Inv) (hun : s.Ungraded)
    {ids : List ReqId} (hids : ids.Nodup) (accepted : Option (List ℤ)) :
    s.GradesVerified ids accepted ↔ s.NoTailGraded ids accepted := by
  constructor
  · intro h id p hp htail
    by_contra ha
    obtain ⟨q, hq, hest⟩ := h id p hp htail (not_lt.mp ha)
    rw [feedback_lookup s hids, hp, Option.map_some] at hq
    cases hq
    exact gradeAt_ne_verified (hinv.previous id p hp) htail (hun id p hp) (not_lt.mp ha) hest
  · intro h id p hp htail ha
    exact absurd (h id p hp htail) (not_lt.mpr ha)

/-- Operations that grade no tail leave the mixer without estimates. -/
lemma Ungraded.op [F64] {s s' : HybridMixer} (hun : s.Ungraded) (hinv : s.Inv) {operation : Op}
    (hop : s.op operation = some s')
    (hgraded : AtCalls (fun s ids accepted => s.NoTailGraded ids accepted) s operation) :
    s'.Ungraded := by
  cases operation with
  | addSequence tokens | addPrompt tokens =>
    obtain ⟨cache, _, rfl⟩ := Option.map_eq_some_iff.mp hop
    exact hun
  | call o ids src natives accepted =>
    obtain ⟨⟨r, t⟩, hcall, rfl⟩ := Option.map_eq_some_iff.mp hop
    rcases call_cases o s ids src natives accepted with ⟨e, he⟩ | hacc
    · rw [he] at hcall
      cases hcall
      exact hun
    · have hno := hgraded o ids src natives accepted rfl hacc
      obtain ⟨drafts, t', hcall', _, _, _, hkeys, hrows⟩ := hacc.rows hinv
      rw [hcall] at hcall'
      cases hcall'
      intro id q hq
      obtain ⟨i, hi⟩ := List.getElem?_of_mem ((hkeys id).mp (Map.mem_of_lookup hq))
      have hlt := (List.getElem?_eq_some_iff.mp hi).1
      have hn : i < natives.length := by rw [hacc.args.natives_length]; exact hlt
      have hr : i < (src.rows ids.length).length := hlt.trans_le hacc.args.rows_length
      obtain ⟨draft, t1, _, _, hrow⟩ := hrows i id _ _ hi (List.getElem?_eq_getElem hn)
        (List.getElem?_eq_getElem hr)
      obtain ⟨t2, _, hstep, hafter⟩ := hrow.step
      obtain ⟨p', hp', _, hest⟩ := hstep.previous
      rw [hafter, hp', Map.lookup_put_self] at hq
      cases hq
      rcases hest with hest | hest
      · exact hest
      · -- the row takes over the estimate that the feedback left
        rw [hest, hrow.slot]
        cases hp : s.previous.lookup id with
        | none => rfl
        | some p =>
          rw [Option.map_some, Option.bind_some]
          by_cases htail : p.native < p.length
          · rw [gradeAt_of_neg (hno id p hp htail)]
            exact hun id p hp
          · rw [gradeAt_of_no_tail (hinv.previous id p hp) htail]
            exact hun id p hp

/-- The accepted calls on a mixer without estimates grade verified tails only if they grade none. -/
lemma atCalls_iff [F64] {s : HybridMixer} (hinv : s.Inv) (hun : s.Ungraded) (operation : Op) :
    AtCalls GradesVerified s operation ↔
      AtCalls (fun s ids accepted => s.NoTailGraded ids accepted) s operation := by
  constructor
  · intro h o ids src natives accepted hop hacc
    exact (gradesVerified_iff hinv hun hacc.args.nodup accepted).mp
      (h o ids src natives accepted hop hacc)
  · intro h o ids src natives accepted hop hacc
    exact (gradesVerified_iff hinv hun hacc.args.nodup accepted).mpr
      (h o ids src natives accepted hop hacc)

/-- Along a run from a mixer without estimates. -/
lemma along_iff [F64] {s : HybridMixer} (hinv : s.Inv) (hun : s.Ungraded) (ops : List Op) :
    Along GradesVerified s ops ↔ Along (fun s ids accepted => s.NoTailGraded ids accepted) s ops := by
  rw [along_iff_atCalls, along_iff_atCalls]
  constructor
  · refine Lib.Along.imp (fun s operation (hs : s.Inv ∧ s.Ungraded) hverified => ?_) ⟨hinv, hun⟩
    have hno := (atCalls_iff hs.1 hs.2 operation).mp hverified
    exact ⟨hno, fun s' hop => ⟨hs.1.op hop, hs.2.op hs.1 hop hno⟩⟩
  · refine Lib.Along.imp (fun s operation (hs : s.Inv ∧ s.Ungraded) hno => ?_) ⟨hinv, hun⟩
    exact ⟨(atCalls_iff hs.1 hs.2 operation).mpr hno,
      fun s' hop => ⟨hs.1.op hop, hs.2.op hs.1 hop hno⟩⟩

/-- A run that grades no tail ends without estimates. -/
lemma Along.ungraded [F64] {s s' : HybridMixer} {ops : List Op}
    (h : Along (fun s ids accepted => s.NoTailGraded ids accepted) s ops) (hinv : s.Inv)
    (hun : s.Ungraded) (hrun : run HybridMixer.op s ops = some s') : s'.Ungraded := by
  have hstep (s : HybridMixer) (operation : Op) (s' : HybridMixer) (hs : s.Inv ∧ s.Ungraded)
      (hno : AtCalls (fun s ids accepted => s.NoTailGraded ids accepted) s operation)
      (hop : s.op operation = some s') : s'.Inv ∧ s'.Ungraded :=
    ⟨hs.1.op hop, hs.2.op hs.1 hop hno⟩
  exact ((along_iff_atCalls.mp h).inv hstep ⟨hinv, hun⟩ hrun).2

/-- A property along a run holds along its beginning. -/
lemma Along.of_append [F64] {P : HybridMixer → List ReqId → Option (List ℤ) → Prop}
    {s : HybridMixer} {pre post : List Op} (h : Along P s (pre ++ post)) : Along P s pre :=
  along_iff_atCalls.mpr (Lib.Along.append.mp (along_iff_atCalls.mp h)).1

/-- In a run from a new mixer every feedback grades verified tails only exactly if no proposal with a
tail ever gets feedback; then no request has its gate closed at any point. -/
theorem grades_verified_iff [F64] {cfg : Config} {env : MixerEnv} {k maxModelLen : ℕ}
    {s : HybridMixer} (hnew : HybridMixer.new cfg env k maxModelLen = .ok s) (ops : List Op) :
    (Along GradesVerified s ops ↔
      Along (fun s ids accepted => s.NoTailGraded ids accepted) s ops) ∧
    (Along (fun s ids accepted => s.NoTailGraded ids accepted) s ops →
      ∀ pre post s', ops = pre ++ post → run op s pre = some s' →
        ∀ id p, s'.previous.lookup id = some p → gateOpen p.suffixEstimate = true) := by
  have hinv := inv_new hnew
  have hun : s.Ungraded := by
    intro id p hp
    unfold HybridMixer.new at hnew
    split at hnew
    · rw [← Except.ok.inj hnew] at hp
      simp [empty] at hp
    · simp at hnew
  refine ⟨along_iff hinv hun ops, ?_⟩
  rintro halong pre post s' rfl hrun id p hp
  rw [halong.of_append.ungraded hinv hun hrun id p hp]
  rfl

/-- A run of two calls, of which the second publishes a tail. -/
theorem grades_verified_iff_two_calls :
    Along GradesVerified (empty (Config.ofN 1 (by decide)) {} 3 100 (by decide)) closedGateOps ↔
      Along (fun s ids accepted => s.NoTailGraded ids accepted)
        (empty (Config.ofN 1 (by decide)) {} 3 100 (by decide)) closedGateOps :=
  (grades_verified_iff (show new (Config.ofN 1 (by decide)) {} 3 100
    = .ok (empty (Config.ofN 1 (by decide)) {} 3 100 (by decide)) from rfl) closedGateOps).1

/-- The proposal `[4, 5, 6]` with the tail `[6]` is rejected at its second native token. The tail was
never verified, and still its estimate drops from none to zero, which closes the gate. -/
theorem censored_tail_graded :
    ∃ s s' : HybridMixer, Reachable s ∧
      s.call (HashOrder.stored ReqId) ["a"] (.lists [[1, 2, 3, 4, 5]]) [[6, 9, 9]] (some [1])
        = some (.ok [[6, 9, 7]], s') ∧
      ∃ p q, s.previous.lookup "a" = some p ∧
        (s.feedback ["a"] (some [1])).previous.lookup "a" = some q ∧
        p.native < p.length ∧ ¬ min (1 + 1) p.length > p.native ∧ p.suffixEstimate = none ∧
        q.suffixEstimate = some 0 ∧ gateOpen q.suffixEstimate = false := by
  obtain ⟨s, s', hs, hcall, hview⟩ := Reachable.exists_call (Config.ofN 1 (by decide)) {} 3 100
    (by decide) (by decide) closedGateOps (HashOrder.stored ReqId) ["a"] (.lists [[1, 2, 3, 4, 5]])
    [[6, 9, 9]] (some [1]) [[6, 9, 7]]
    (fun s _ => (s.previous.lookup "a").any fun p : Previous =>
      ((s.feedback ["a"] (some [1])).previous.lookup "a").any fun q : Previous =>
        decide (p.suffixEstimate = none ∧ p.native = 2 ∧ p.length = 3 ∧
          q.suffixEstimate = some 0)) true (by with_unfolding_all decide)
  obtain ⟨p, hp, hq⟩ := (Option.any_eq_true _ _).mp hview
  obtain ⟨q, hq, heq⟩ := (Option.any_eq_true _ _).mp hq
  obtain ⟨hnone, hnative, hlength, hzero⟩ := of_decide_eq_true heq
  refine ⟨s, s', hs, hcall, p, q, hp, hq, by omega, by omega, hnone, hzero, ?_⟩
  rw [hzero]
  decide

end HybridMixer
end SuffixHybrid
