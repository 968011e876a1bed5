import SuffixHybrid.Tune.Step

/-!
# When the ranks stay in lockstep

A point of a step that a collective follows must be one at which all ranks raise or none (`Alike`).
Then the ranks run in lockstep and each ends as it would by itself (`steps_expected`). `fault_hangs`
is the injected fault on one of two ranks, which leaves the other in the broadcast of the plan.
-/

namespace SuffixHybrid.Tune
open Lib

variable {n : ℕ}

/-! ## The points of a step -/

/-- All ranks raise at a point, or none. -/
def Alike (c : Call n) (pt : Point) : Prop :=
  (∀ r, (c.rank r).raise = some pt) ∨ ∀ r, (c.rank r).raise ≠ some pt

/-- Some rank is short of memory. -/
def Call.low (c : Call n) : Bool := decide (∃ r, (c.rank r).low = true)

/-- The points of a step that one of its collectives follows. -/
def Plan.ahead (p : Plan) (low : Bool) : Point → Bool
  | .start => true
  | .memory => match p with
    | .train _ | .eval _ _ => true
    | _ => false
  | .op j => match p with
    | .train k => !low && j < k
    | .eval k last => !low && j < k + last.toNat
    | _ => false
  | _ => false

/-- The points of a step behind its last collective, but for the log line. -/
def Plan.behind (p : Plan) (low d : Bool) : Point → Bool
  | .zero => p = .rollback
  | .op j => match p with
    | .train k => !low && j = k
    | .eval k last => !low && !last && j = k
    | _ => false
  | .promote _ => match p with
    | .eval _ last => !low && last && d
    | _ => false
  | _ => false

/-- Whether the op of a step ran. -/
def Plan.worked (p : Plan) (low : Bool) : Bool :=
  match p with
  | .none => false
  | .rollback => true
  | .train _ | .eval _ _ => !low

/-- Whether a step comes to `promote`. -/
def Plan.promotes (p : Plan) (low d : Bool) : Bool :=
  match p with
  | .eval _ last => !low && last && d
  | _ => false

/-- How many adapters a rank has copied when it raises. -/
def Point.copied (adapters : ℕ) : Point → ℕ
  | .promote k => min k adapters
  | _ => 0

/-- The point of the step at which a rank raises, if it does. -/
def Call.raises (cfg : Config) (c : Call n) (s : Fin (n + 1) → Rank) (r : Fin (n + 1)) : Option Point :=
  (c.rank r).raise.filter fun pt =>
    c.plan.ahead c.low pt || c.plan.behind c.low (c.decision cfg s) pt

/-- The tuner of a rank behind a step in which it did not raise. -/
def Plan.after (p : Plan) (s : Rank) : Rank :=
  match p with
  | .rollback => { s with rolledBack := true }
  | _ => s

/-- How a step ends on a rank by itself. -/
def Call.expected (cfg : Config) (c : Call n) (s : Fin (n + 1) → Rank) (r : Fin (n + 1)) : Out :=
  match c.raises cfg s r with
  | some pt => raised (s r) (pt.copied cfg.adapters)
  | none => finish (c.rank r) (c.plan.after (s r))
      (if c.plan.promotes c.low (c.decision cfg s) then cfg.adapters else 0) (c.plan.worked c.low)

/-! ## The op -/

/-- Whether a rank raises at the op behind `i` to `k` of its collectives. -/
def raisesOp (i k : ℕ) : Option Point → Bool
  | some (.op j) => i ≤ j && j ≤ k
  | _ => false

lemma raisesOp_iff {i k : ℕ} {raise : Option Point} :
    raisesOp i k raise = true ↔ ∃ j, i ≤ j ∧ j ≤ k ∧ raise = some (.op j) := by
  unfold raisesOp
  split <;> simp_all

/-- The collectives of an op: the ranks stop at the same one, or behind the last. -/
lemma ops_lockstep (c : Call n) (i m : ℕ) (h : ∀ j, i ≤ j → j < i + m → Alike c (.op j)) :
    ∃ tr, Lockstep combine (fun r => ops (c.rank r).raise i m) tr
      (fun r => raisesOp i (i + m) (c.rank r).raise) := by
  induction m generalizing i with
  | zero =>
    refine ⟨[], .done fun r => ?_⟩
    rw [ops, Proc.done.injEq, Bool.eq_iff_iff, raisesOp_iff, decide_eq_true_iff]
    constructor
    · exact fun e => ⟨i, le_rfl, le_rfl, e⟩
    · rintro ⟨j, h1, h2, e⟩
      rwa [Nat.le_antisymm h1 h2]
  | succ m ih =>
    obtain hall | hnone := h i le_rfl (by omega)
    · refine ⟨[], .done fun r => ?_⟩
      rw [ops, if_pos (hall r), Proc.done.injEq]
      exact (raisesOp_iff.mpr ⟨i, le_rfl, by omega, hall r⟩).symm
    · obtain ⟨tr, hl⟩ := ih (i + 1) fun j h1 h2 => h j (by omega) (by omega)
      have hres (r : Fin (n + 1)) : raisesOp (i + 1) (i + 1 + m) (c.rank r).raise =
          raisesOp i (i + (m + 1)) (c.rank r).raise := by
        rw [Bool.eq_iff_iff, raisesOp_iff, raisesOp_iff]
        refine exists_congr fun j => ⟨fun ⟨h1, h2, e⟩ => ⟨by omega, by omega, e⟩, ?_⟩
        rintro ⟨h1, h2, e⟩
        have hne : j ≠ i := by
          rintro rfl
          exact hnone r e
        exact ⟨by omega, by omega, e⟩
      simp only [ops, if_neg (hnone _)]
      refine ⟨_, .stepWith tr ?_⟩
      simpa only [hres] using hl

/-- All ranks raise in an op, or none. -/
lemma raisesOp_alike {c : Call n} {k : ℕ} (h : ∀ j ≤ k, Alike c (.op j)) :
    (∀ r, raisesOp 0 k (c.rank r).raise = true) ∨ ∀ r, raisesOp 0 k (c.rank r).raise = false := by
  by_cases hex : ∃ r, raisesOp 0 k (c.rank r).raise = true
  case neg =>
    push Not at hex
    exact .inr fun r => Bool.eq_false_iff.mpr (hex r)
  case pos =>
    obtain ⟨r, hr⟩ := hex
    obtain ⟨j, -, hj, e⟩ := raisesOp_iff.mp hr
    refine .inl fun r' => raisesOp_iff.mpr ⟨j, Nat.zero_le j, hj, ?_⟩
    exact (h j hj).resolve_right (fun hnone => hnone r e) r'

/-- What `_mem_ok` and the op come to on a rank. -/
def opResult (c : Call n) (colls : ℕ) (r : Fin (n + 1)) : Option Bool :=
  if (c.rank r).raise = some .memory then none
  else if c.low then some false
  else if raisesOp 0 colls (c.rank r).raise then none else some true

lemma runOp_lockstep (c : Call n) (colls : ℕ) (hmem : Alike c .memory)
    (hop : c.low = false → ∀ j < colls, Alike c (.op j)) :
    ∃ tr, Lockstep combine (fun r => runOp (c.rank r) colls) tr (opResult c colls) := by
  obtain hall | hnone := hmem
  · refine ⟨[], .done fun r => ?_⟩
    rw [runOp, opResult, if_pos (hall r), if_pos (hall r)]
  have hflag : combine .memory (fun r => .flag (c.rank r).low) = .flag c.low := by
    simp [combine, Call.low]
  simp only [runOp, if_neg (hnone _)]
  cases hlow : c.low with
  | true =>
    refine ⟨_, .stepWith [] ?_⟩
    rw [hflag, hlow]
    refine .done fun r => ?_
    rw [if_pos rfl, opResult, if_neg (hnone r), if_pos hlow]
  | false =>
    obtain ⟨tr, hl⟩ := ops_lockstep c 0 colls fun j _ hj => hop hlow j (by omega)
    refine ⟨_, .stepWith (tr ++ []) ?_⟩
    rw [hflag, hlow]
    simp only [Msg.flag.injEq, Bool.false_eq_true, if_false]
    refine hl.bind (.done fun r => ?_)
    rw [opResult, if_neg (hnone r), hlow, Nat.zero_add]
    simp

/-! ## The step -/

lemma combine_plan (c : Call n) :
    combine .plan (fun r : Fin (n + 1) => if decide (r = 0) = true then .plan c.plan else .empty) =
      .plan c.plan := by
  simp [combine]

/-- A rank that raises at a point of the step. -/
lemma expected_raised {cfg : Config} {c : Call n} {s : Fin (n + 1) → Rank} {r : Fin (n + 1)} {pt : Point}
    (hr : (c.rank r).raise = some pt)
    (hpt : (c.plan.ahead c.low pt || c.plan.behind c.low (c.decision cfg s) pt) = true) :
    c.expected cfg s r = raised (s r) (pt.copied cfg.adapters) := by
  simp only [Call.expected, Call.raises, hr, Option.filter_some, hpt, if_true]

/-- A rank that does not raise at any point of the step. -/
lemma expected_finish {cfg : Config} {c : Call n} {s : Fin (n + 1) → Rank} {r : Fin (n + 1)}
    (h : ∀ pt, (c.rank r).raise = some pt →
      (c.plan.ahead c.low pt || c.plan.behind c.low (c.decision cfg s) pt) = false) :
    c.expected cfg s r = finish (c.rank r) (c.plan.after (s r))
      (if c.plan.promotes c.low (c.decision cfg s) then cfg.adapters else 0)
      (c.plan.worked c.low) := by
  have hnone : c.raises cfg s r = none := by
    rw [Call.raises, Option.filter_eq_none_iff]
    intro pt hpt
    rw [h pt hpt]
    exact Bool.false_ne_true
  simp only [Call.expected, hnone]

/-- A rank that raises neither in the memory check nor in the op. -/
lemma opResult_some {c : Call n} {colls : ℕ} {r : Fin (n + 1)} {w : Bool}
    (h : opResult c colls r = some w) :
    (c.rank r).raise ≠ some .memory ∧ w = !c.low ∧
      (c.low = false → ∀ j ≤ colls, (c.rank r).raise ≠ some (.op j)) := by
  rw [opResult] at h
  split at h
  · cases h
  case isFalse hmem =>
  refine ⟨hmem, ?_⟩
  split at h
  case isTrue hlow => simp_all
  case isFalse hlow =>
    rw [Bool.not_eq_true] at hlow
    split at h
    · cases h
    case isFalse hop =>
      refine ⟨by simp_all, fun _ j hj e => hop ?_⟩
      exact raisesOp_iff.mpr ⟨j, Nat.zero_le j, hj, e⟩

/-- A rank that raises in the memory check or in the op. -/
lemma opResult_none {c : Call n} {colls : ℕ} {r : Fin (n + 1)} (h : opResult c colls r = none) :
    (c.rank r).raise = some .memory ∨
      c.low = false ∧ ∃ j ≤ colls, (c.rank r).raise = some (.op j) := by
  rw [opResult] at h
  split at h
  case isTrue hmem => exact .inl hmem
  case isFalse =>
    split at h
    · cases h
    case isFalse hlow =>
      split at h
      case isTrue hop =>
        obtain ⟨j, -, hj, e⟩ := raisesOp_iff.mp hop
        exact .inr ⟨Bool.eq_false_iff.mpr hlow, j, hj, e⟩
      · cases h

/-- The training step of a rank, behind the plan. -/
lemma train_expected {cfg : Config} {c : Call n} {s : Fin (n + 1) → Rank} {k : ℕ}
    (hp : c.plan = .train k) (r : Fin (n + 1)) (hstart : (c.rank r).raise ≠ some .start) :
    c.expected cfg s r = match opResult c k r with
      | none => raised (s r) 0
      | some worked => finish (c.rank r) (s r) 0 worked := by
  cases hres : opResult c k r with
  | none =>
    obtain hmem | ⟨hlow, j, hj, e⟩ := opResult_none hres
    · rw [expected_raised hmem (by simp [hp, Plan.ahead])]
      rfl
    · rw [expected_raised e]
      · rfl
      · simp only [hp, Plan.ahead, Plan.behind, hlow]
        simp [Nat.lt_or_eq_of_le hj]
  | some w =>
    obtain ⟨hmem, rfl, hop⟩ := opResult_some hres
    rw [expected_finish]
    · simp [hp, Plan.after, Plan.promotes, Plan.worked]
    · intro pt hpt
      cases pt with
      | start => exact absurd hpt hstart
      | memory => exact absurd hpt hmem
      | op j =>
        simp only [hp, Plan.ahead, Plan.behind]
        cases hlow : c.low
        case true => rfl
        case false =>
          have hj : k < j := by
            by_contra hj
            exact hop hlow j (Nat.not_lt.mp hj) hpt
          simp [hj.not_gt, hj.ne']
      | _ => simp [hp, Plan.ahead, Plan.behind]

/-- The evaluation step of a rank, behind the plan. -/
lemma eval_expected {cfg : Config} {c : Call n} {s : Fin (n + 1) → Rank} {k : ℕ} {last : Bool}
    (hp : c.plan = .eval k last) (r : Fin (n + 1)) (hstart : (c.rank r).raise ≠ some .start) :
    c.expected cfg s r = match opResult c k r with
      | none => raised (s r) 0
      | some false => finish (c.rank r) (s r) 0 false
      | some true => if (last && c.decision cfg s) = true then promote cfg.adapters (c.rank r) (s r)
          else finish (c.rank r) (s r) 0 true := by
  cases hres : opResult c k r with
  | none =>
    obtain hmem | ⟨hlow, j, hj, e⟩ := opResult_none hres
    · rw [expected_raised hmem (by simp [hp, Plan.ahead])]
      rfl
    · rw [expected_raised e]
      · rfl
      · cases last <;> simp [hp, Plan.ahead, Plan.behind, hlow, Nat.lt_or_eq_of_le hj,
          Nat.lt_succ_of_le hj]
  | some w =>
    obtain ⟨hmem, rfl, hop⟩ := opResult_some hres
    -- the points of the op are none at which the rank raises
    have hquiet (j : ℕ) (e : (c.rank r).raise = some (.op j)) :
        (c.plan.ahead c.low (.op j) || c.plan.behind c.low (c.decision cfg s) (.op j)) = false := by
      cases hlow : c.low
      case true => simp [hp, Plan.ahead, Plan.behind]
      case false =>
        have hj : k < j := by
          by_contra hj
          exact hop hlow j (Nat.not_lt.mp hj) e
        cases last <;> simp [hp, Plan.ahead, Plan.behind] <;> omega
    by_cases hpro : c.low = false ∧ last = true ∧ c.decision cfg s = true ∧
      ∃ q, (c.rank r).raise = some (.promote q)
    case pos =>
      obtain ⟨hlow, rfl, hd, q, e⟩ := hpro
      rw [expected_raised e (by simp [hp, Plan.behind, hlow, hd])]
      simp [hlow, hd, promote, e, Point.copied]
    case neg =>
      rw [expected_finish]
      · have hprom : c.plan.promotes c.low (c.decision cfg s) =
            (!c.low && (last && c.decision cfg s)) := by
          rw [hp, Plan.promotes, Bool.and_assoc]
        rw [hprom, hp]
        cases hlow : c.low
        case true => rfl
        case false =>
          by_cases hd : (last && c.decision cfg s) = true
          · have hno (q : ℕ) : (c.rank r).raise ≠ some (.promote q) := by
              rw [Bool.and_eq_true] at hd
              exact fun e => hpro ⟨hlow, hd.1, hd.2, q, e⟩
            simp only [Bool.not_false, Bool.true_and, hd, if_true, promote]
            rfl
          · rw [Bool.not_eq_true] at hd
            simp only [Bool.not_false, Bool.true_and, hd, Bool.false_eq_true, if_false]
            rfl
      · intro pt hpt
        cases pt with
        | start => exact absurd hpt hstart
        | memory => exact absurd hpt hmem
        | op j => exact hquiet j hpt
        | promote q =>
          simp only [hp, Plan.ahead, Plan.behind, Bool.false_or]
          by_contra hcon
          simp only [Bool.not_eq_false, Bool.and_eq_true, Bool.not_eq_true'] at hcon
          exact hpro ⟨hcon.1.1, hcon.1.2, hcon.2, q, hpt⟩
        | _ => simp [hp, Plan.ahead, Plan.behind]

/-- The ranks come to the same result of the memory check and the op. -/
lemma opResult_alike {c : Call n} {k : ℕ} (hmem : Alike c .memory)
    (hop : c.low = false → ∀ j ≤ k, Alike c (.op j)) :
    ∃ w, ∀ r, opResult c k r = w := by
  obtain hall | hnone := hmem
  · exact ⟨none, fun r => by rw [opResult, if_pos (hall r)]⟩
  cases hlow : c.low with
  | true => exact ⟨some false, fun r => by rw [opResult, if_neg (hnone r), if_pos hlow]⟩
  | false =>
    obtain hraise | hquiet := raisesOp_alike (hop hlow)
    · exact ⟨none, fun r => by simp [opResult, hnone r, hlow, hraise r]⟩
    · exact ⟨some true, fun r => by simp [opResult, hnone r, hlow, hquiet r]⟩

/-- `Tuner.step` on all ranks: in lockstep, and each rank ends as it would by itself. -/
theorem tunerStep_lockstep (cfg : Config) (c : Call n) (s : Fin (n + 1) → Rank)
    (h : ∀ pt, c.plan.ahead c.low pt = true → Alike c pt) :
    ∃ tr, Lockstep combine
      (fun r => tunerStep cfg.adapters cfg.shadow (r = 0) c.plan (c.rank r) (s r)) tr
      (c.expected cfg s) := by
  obtain hall | hstart := h .start rfl
  · refine ⟨[], .done fun r => ?_⟩
    rw [tunerStep, if_pos (hall r), expected_raised (hall r) rfl]
    rfl
  simp only [tunerStep, if_neg (hstart _)]
  cases hp : c.plan with
  | none =>
    refine ⟨_, .stepWith [] (.done fun r => ?_)⟩
    rw [← hp, combine_plan, hp]
    dsimp only
    refine congrArg Proc.done (Eq.symm ?_)
    rw [expected_finish]
    · simp [hp, Plan.after, Plan.promotes, Plan.worked]
    · intro pt hpt
      cases pt with
      | start => exact absurd hpt (hstart r)
      | _ => simp [hp, Plan.ahead, Plan.behind]
  | rollback =>
    refine ⟨_, .stepWith [] (.done fun r => ?_)⟩
    rw [← hp, combine_plan, hp]
    dsimp only
    split
    case isTrue hzero =>
      rw [expected_raised hzero (by simp [hp, Plan.behind])]
      rfl
    case isFalse hzero =>
      refine congrArg Proc.done (Eq.symm ?_)
      rw [expected_finish]
      · simp [hp, Plan.after, Plan.promotes, Plan.worked]
      · intro pt hpt
        cases pt with
        | start => exact absurd hpt (hstart r)
        | zero => exact absurd hpt hzero
        | _ => simp [hp, Plan.ahead, Plan.behind]
  | train k =>
    obtain ⟨tr, hl⟩ := runOp_lockstep c k (h .memory (by simp [hp, Plan.ahead])) fun hlow j hj =>
      h (.op j) (by simp [hp, Plan.ahead, hlow, hj])
    refine ⟨_, .stepWith (tr ++ []) ?_⟩
    rw [← hp, combine_plan, hp]
    refine hl.bind (.done fun r => congrArg _ ?_)
    exact (train_expected hp r (hstart r)).symm
  | eval k last =>
    have hmem := h .memory (by simp [hp, Plan.ahead])
    have hop (hlow : c.low = false) (j : ℕ) (hj : j < k + last.toNat) : Alike c (.op j) :=
      h (.op j) (by simp [hp, Plan.ahead, hlow, hj])
    obtain ⟨tr, hl⟩ := runOp_lockstep c k hmem fun hlow j hj => hop hlow j (by omega)
    have hexp (r : Fin (n + 1)) : c.expected cfg s r = _ := eval_expected hp r (hstart r)
    cases last with
    | false =>
      refine ⟨_, .stepWith (tr ++ []) ?_⟩
      rw [← hp, combine_plan, hp]
      refine hl.bind (.done fun r => ?_)
      rw [hexp r]
      generalize opResult c k r = w
      rcases w with _ | _ | _ <;> rfl
    | true =>
      obtain ⟨w, hw⟩ := opResult_alike hmem fun hlow j hj => hop hlow j (Nat.lt_succ_of_le hj)
      rcases w with _ | _ | _
      · refine ⟨_, .stepWith (tr ++ []) ?_⟩
        rw [← hp, combine_plan, hp]
        refine hl.bind (.done fun r => ?_)
        rw [hexp r, hw r]
      · refine ⟨_, .stepWith (tr ++ []) ?_⟩
        rw [← hp, combine_plan, hp]
        refine hl.bind (.done fun r => ?_)
        rw [hexp r, hw r]
      · have hd : combine .promote (fun r : Fin (n + 1) => if decide (r = 0) = true then
            Msg.flag ((c.rank r).decide && !(s r).rolledBack && !cfg.shadow) else .empty) =
            .flag (c.decision cfg s) := by simp [combine, Call.decision]
        refine ⟨_, .stepWith (tr ++ [(.promote, fun r => if decide (r = 0) = true then
          .flag ((c.rank r).decide && !(s r).rolledBack && !cfg.shadow) else .empty)]) ?_⟩
        rw [← hp, combine_plan, hp]
        refine hl.bind ?_
        simp only [hw, if_true]
        refine .step (.done fun r => ?_)
        rw [hd, hexp r, hw r]
        simp only [Msg.flag.injEq, Bool.true_and]
        split <;> rfl

/-! ## `worker_step` -/

/-- Several ranks vote. -/
lemma progs_vote (cfg : Config) (c : Call (n + 1)) (s : Fin (n + 1 + 1) → Rank) :
    c.progs cfg s = fun r => .sync .vote (.flag !(s r).ok) (c.afterVote cfg s r) := by
  funext r
  rw [Call.progs, workerStep, if_pos (by omega)]
  rfl

/-- One rank does not. -/
lemma progs_single (cfg : Config) (c : Call 0) (s : Fin (0 + 1) → Rank) :
    c.progs cfg s = fun r => if (s r).ok then
      tunerStep cfg.adapters cfg.shadow (r = 0) c.plan (c.rank r) (s r) else .done (refused (s r)) := by
  funext r
  rw [Call.progs, workerStep, if_neg (by omega)]

/-- A rank without a live tuner keeps all of them out, and none is live behind the step. -/
lemma steps_blocked (cfg : Config) (c : Call n) {s : Fin (n + 1) → Rank} (h : ∃ r, (s r).ok = false) :
    ∃ tr out, Steps cfg c s tr out ∧ ∀ r, (out r).rank.ok = false ∧ (out r).caught = false ∧
      (out r).escaped = false ∧ (out r).copied = 0 := by
  cases n with
  | zero =>
    obtain ⟨r0, h0⟩ := h
    have hr (r : Fin (0 + 1)) : (s r).ok = false := by
      rwa [Fin.eq_zero r, ← Fin.eq_zero r0]
    refine ⟨[], fun r => refused (s r), ?_, fun r => ⟨hr r, rfl, rfl, rfl⟩⟩
    rw [Steps, progs_single]
    simp only [hr, Bool.false_eq_true, if_false]
    exact .pure _
  | succ n =>
    have hvote : combine .vote (fun r => .flag !(s r).ok) = .flag true := by
      simpa [combine] using h
    refine ⟨[(.vote, fun r => .flag !(s r).ok)],
      fun r => refused { s r with disabled := (s r).disabled || (s r).installed }, ?_,
      fun r => ⟨?_, rfl, rfl, rfl⟩⟩
    · rw [Steps, progs_vote]
      refine .step (.done fun r => ?_)
      rw [hvote, Call.afterVote, if_pos rfl]
    · cases hi : (s r).installed <;> simp [refused, Rank.ok, hi]

/-- With all tuners live the step is the one of `Tuner.step`. -/
lemma steps_live (cfg : Config) (c : Call n) {s : Fin (n + 1) → Rank} (hok : ∀ r, (s r).ok = true)
    (h : ∀ pt, c.plan.ahead c.low pt = true → Alike c pt) :
    ∃ tr, Steps cfg c s tr (c.expected cfg s) := by
  obtain ⟨tr, hl⟩ := tunerStep_lockstep cfg c s h
  cases n with
  | zero =>
    refine ⟨tr, ?_⟩
    rw [Steps, progs_single]
    simpa only [hok, if_true] using hl
  | succ n =>
    have hvote : combine .vote (fun r => .flag !(s r).ok) = .flag false := by
      simp [combine, hok]
    have hgo (r : Fin (n + 1 + 1)) : c.afterVote cfg s r (.flag false) =
        tunerStep cfg.adapters cfg.shadow (r = 0) c.plan (c.rank r) (s r) := by
      rw [Call.afterVote, if_neg (by simp), if_pos (hok r)]
    refine ⟨(.vote, fun r => .flag !(s r).ok) :: tr, ?_⟩
    rw [Steps, progs_vote]
    refine .step ?_
    simpa only [hvote, hgo] using hl

/-! ## Runs -/

/-- How many adapters a rank copies in a step that comes to `promote`. -/
def Call.copies (cfg : Config) (c : Call n) (r : Fin (n + 1)) : ℕ :=
  match (c.rank r).raise with
  | some (.promote k) => min k cfg.adapters
  | _ => cfg.adapters

/-- A call that does no harm: at every point that a collective follows all ranks raise or none; the
ranks copy equally many adapters; a log line that raises does so in a step that raised elsewhere. -/
structure Harmless (cfg : Config) (c : Call n) (s : Fin (n + 1) → Rank) : Prop where
  ahead : ∀ pt, c.plan.ahead c.low pt = true → Alike c pt
  copies : c.plan.promotes c.low (c.decision cfg s) = true → ∀ r r', c.copies cfg r = c.copies cfg r'
  log : (∃ r, (c.rank r).raise = some .log) → ∃ r, (c.raises cfg s r).isSome

/-- Every call of a run that finds all tuners live does no harm. -/
def HarmlessAlong (cfg : Config) : (Fin (n + 1) → Rank) → List (Call n) → Prop
  | _, [] => True
  | s, c :: cs => ((∀ r, (s r).ok = true) → Harmless cfg c s) ∧
      ∀ tr out, Steps cfg c s tr out → HarmlessAlong cfg (fun r => (out r).rank) cs

/-- What a step leaves: an adapter is promoted on all ranks or on none, and after a failure on any rank
no tuner is live behind the next step. -/
structure Sound (cfg : Config) (out : Fin (n + 1) → Out) : Prop where
  promoted : ∀ i, (∃ r, i < (out r).copied) → ∀ r, i < (out r).copied
  disabled : (∃ r, (out r).caught = true ∨ (out r).escaped = true) → ∀ c : Call n, ∃ tr out',
    Steps cfg c (fun r => (out r).rank) tr out' ∧ ∀ r, (out' r).rank.ok = false

/-- All steps of a run are in lockstep and sound. -/
def Safe (cfg : Config) : (Fin (n + 1) → Rank) → List (Call n) → Prop
  | _, [] => True
  | s, c :: cs => ∃ tr out, Steps cfg c s tr out ∧ Sound cfg out ∧ Safe cfg (fun r => (out r).rank) cs

lemma expected_of_raises {cfg : Config} {c : Call n} {s : Fin (n + 1) → Rank} {r : Fin (n + 1)}
    {pt : Point} (h : c.raises cfg s r = some pt) :
    c.expected cfg s r = raised (s r) (pt.copied cfg.adapters) := by
  simp only [Call.expected, h]

lemma expected_of_quiet {cfg : Config} {c : Call n} {s : Fin (n + 1) → Rank} {r : Fin (n + 1)}
    (h : c.raises cfg s r = none) :
    c.expected cfg s r = finish (c.rank r) (c.plan.after (s r))
      (if c.plan.promotes c.low (c.decision cfg s) then cfg.adapters else 0)
      (c.plan.worked c.low) := by
  simp only [Call.expected, h]

/-- The ranks copy equally many adapters in a step that does no harm. -/
lemma expected_copied {cfg : Config} {c : Call n} {s : Fin (n + 1) → Rank} (h : Harmless cfg c s)
    (r r' : Fin (n + 1)) : (c.expected cfg s r).copied = (c.expected cfg s r').copied := by
  by_cases hahead : ∃ pt r, c.plan.ahead c.low pt = true ∧ (c.rank r).raise = some pt
  case pos =>
    -- all ranks raise ahead of a collective, where nothing is copied
    obtain ⟨pt, r0, hpt, e⟩ := hahead
    have hall := (h.ahead pt hpt).resolve_right fun hnone => hnone r0 e
    have hcopied (r : Fin (n + 1)) : (c.expected cfg s r).copied = 0 := by
      rw [expected_raised (hall r) (by rw [hpt, Bool.true_or])]
      cases pt with
      | promote q => simp [Plan.ahead] at hpt
      | _ => rfl
    rw [hcopied r, hcopied r']
  case neg =>
    push Not at hahead
    have hcopied (r : Fin (n + 1)) : (c.expected cfg s r).copied =
        if c.plan.promotes c.low (c.decision cfg s) then c.copies cfg r else 0 := by
      cases hr : c.raises cfg s r with
      | none =>
        rw [expected_of_quiet hr, finish]
        split
        case isFalse => rfl
        case isTrue hprom =>
          rw [Call.copies]
          split
          case h_2 => rfl
          case h_1 q e =>
            rw [Call.raises, Option.filter_eq_none_iff] at hr
            have hq := hr _ e
            cases hp : c.plan <;> simp_all [Plan.promotes, Plan.behind]
      | some pt =>
        rw [expected_of_raises hr]
        rw [Call.raises, Option.filter_eq_some_iff, Bool.or_eq_true] at hr
        obtain ⟨e, hpt⟩ := hr
        have hbehind := hpt.resolve_left fun ha => hahead pt r ha e
        cases pt with
        | promote q =>
          have hprom : c.plan.promotes c.low (c.decision cfg s) = true := by
            cases hp : c.plan <;> simp_all [Plan.promotes, Plan.behind]
          rw [if_pos hprom, Call.copies, e]
          rfl
        | zero => cases hp : c.plan <;> simp_all [Plan.promotes, Plan.behind, raised, Point.copied]
        | op j =>
          cases hp : c.plan <;> simp_all [Plan.promotes, Plan.behind, raised, Point.copied]
        | _ => cases hp : c.plan <;> simp_all [Plan.behind]
    rw [hcopied r, hcopied r']
    split
    case isTrue hprom => exact h.copies hprom r r'
    case isFalse => rfl

/-- A step that does no harm is in lockstep and sound. -/
theorem steps_sound (cfg : Config) (c : Call n) (s : Fin (n + 1) → Rank)
    (h : (∀ r, (s r).ok = true) → Harmless cfg c s) :
    ∃ tr out, Steps cfg c s tr out ∧ Sound cfg out := by
  by_cases hok : ∀ r, (s r).ok = true
  case neg =>
    push Not at hok
    obtain ⟨r, hr⟩ := hok
    obtain ⟨tr, out, hl, hout⟩ := steps_blocked cfg c ⟨r, Bool.eq_false_iff.mpr hr⟩
    refine ⟨tr, out, hl, ⟨fun i ⟨r, hi⟩ => ?_, fun ⟨r, hf⟩ => ?_⟩⟩
    · rw [(hout r).2.2.2] at hi
      exact absurd hi (Nat.not_lt_zero i)
    · rw [(hout r).2.1, (hout r).2.2.1] at hf
      simp at hf
  case pos =>
    have hc := h hok
    obtain ⟨tr, hl⟩ := steps_live cfg c hok hc.ahead
    refine ⟨tr, _, hl, ⟨fun i ⟨r, hi⟩ r' => ?_, fun ⟨r, hf⟩ c' => ?_⟩⟩
    · rwa [expected_copied hc r' r]
    · have hraised : ∃ r, (c.raises cfg s r).isSome := by
        cases hr : c.raises cfg s r with
        | some pt => exact ⟨r, by rw [hr]; rfl⟩
        | none =>
          rw [expected_of_quiet hr, finish] at hf
          simp only [Bool.false_eq_true, decide_eq_true_eq, false_or] at hf
          exact hc.log ⟨r, hf⟩
      obtain ⟨r', hr'⟩ := hraised
      obtain ⟨pt, hpt⟩ := Option.isSome_iff_exists.mp hr'
      have hdown : (c.expected cfg s r').rank.ok = false := by
        rw [expected_of_raises hpt, raised, Rank.ok]
        exact Bool.and_false _
      obtain ⟨tr', out', hl', hout'⟩ := steps_blocked cfg c'
        (s := fun r => (c.expected cfg s r).rank) ⟨r', hdown⟩
      exact ⟨tr', out', hl', fun r => (hout' r).1⟩

/-- A run whose calls do no harm stays in lockstep. -/
theorem lockstep_along (cfg : Config) (cs : List (Call n)) (s : Fin (n + 1) → Rank)
    (h : HarmlessAlong cfg s cs) : Safe cfg s cs := by
  induction cs generalizing s with
  | nil => trivial
  | cons c cs ih =>
    obtain ⟨tr, out, hl, hs⟩ := steps_sound cfg c s h.1
    exact ⟨tr, out, hl, hs, ih _ (h.2 tr out hl)⟩

/-- A live tuner. -/
def fresh : Rank := { installed := true, disabled := false, rolledBack := false }

/-- Nothing happens on a rank. -/
def calm : Local := { raise := none, low := false, decide := true }

theorem lockstep_along_fault :
    Safe (n := 1) { adapters := 2, shadow := false } (fun _ => fresh)
      [{ plan := .none, rank := fun _ => { calm with raise := some .start } }] := by
  refine lockstep_along (n := 1) _ _ _ ⟨fun _ => ⟨?_, ?_, ?_⟩, fun _ _ _ => trivial⟩
  · intro pt hpt
    cases pt with
    | start => exact .inl fun _ => rfl
    | _ => simp [Plan.ahead] at hpt
  · simp [Plan.promotes]
  · rintro ⟨r, hr⟩
    simp at hr

/-- The injected fault on rank 1. -/
def faultOne : Call 1 where
  plan := .none
  rank r := if r.val = 1 then { calm with raise := some .start } else calm

/-- The injected fault on rank 1 of two: rank 0 waits in the broadcast of the plan. -/
theorem fault_hangs : ¬ ∃ tr out, Steps { adapters := 2, shadow := false } faultOne (fun _ => fresh)
    tr out := by
  rintro ⟨tr, out, h⟩
  rw [Steps, progs_vote] at h
  obtain ⟨tr', -, hrest⟩ := Lockstep.sync_inv (fun _ => rfl) h
  -- behind the vote rank 1 has ended, and rank 0 is in the broadcast
  have hgo (r : Fin 2) : faultOne.afterVote { adapters := 2, shadow := false } (fun _ => fresh) r
      (combine .vote fun _ : Fin 2 => .flag !fresh.ok) =
      tunerStep 2 false (r = 0) .none (faultOne.rank r) fresh := rfl
  simp only [hgo] at hrest
  have hone : tunerStep 2 false ((1 : Fin 2) = 0) .none (faultOne.rank 1) fresh =
      .done (raised fresh 0) := if_pos rfl
  exact hrest.not_done_sync hone (j := 0) (if_neg (by decide))

end SuffixHybrid.Tune
