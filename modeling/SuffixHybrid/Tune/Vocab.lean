import Mathlib.Algebra.BigOperators.Intervals
import Mathlib.Algebra.Order.Floor.Ring
import Mathlib.Algebra.Order.Monoid.WithTop
import Mathlib.Analysis.SpecialFunctions.Log.Basic
import SuffixHybrid.Lib.Best

/-!
# The vocab-parallel head

Each rank holds the logits of a range of the vocabulary, with padding columns of `-inf` behind them. The loss
shifts by the largest logit of all ranks, sums the weights of all columns and adds the one target logit that is not
zero. The shift cancels and padding has no weight, so each rank returns the loss of the whole row
(`vocabParallelCe_eq`). The arg-max picks a rank by its largest logit, and that rank's column
(`vocabParallelArgmax_eq`).
-/

namespace SuffixHybrid.Tune

variable {K : Type}

/-- What a rank holds: its range of the vocabulary and the columns of its head, padding at the end. -/
structure Shard (K : Type) where
  start : ℕ
  stop : ℕ
  cols : ℕ
  y : ℕ → ℕ → K

/-- `logits_local`: the padding is `-inf`. -/
def Shard.logitsLocal (s : Shard K) (row j : ℕ) : WithBot K := if j < s.stop - s.start then (s.y row j : WithBot K) else ⊥

/-- The rank holds a range of the rows of `full`. -/
structure Shard.Holds (s : Shard K) (full : ℕ → ℕ → K) : Prop where
  le : s.start ≤ s.stop
  fits : s.stop - s.start ≤ s.cols
  cols_pos : 0 < s.cols
  eq : ∀ row, ∀ j < s.stop - s.start, s.y row j = full row (s.start + j)

/-- The ranks hold the vocabulary from `a` to `c` in order. -/
inductive Sharded (full : ℕ → ℕ → K) : ℕ → ℕ → List (Shard K) → Prop where
  | nil (a : ℕ) : Sharded full a a []
  | cons {s : Shard K} {c : ℕ} {l : List (Shard K)} : s.Holds full → Sharded full s.stop c l → Sharded full s.start c (s :: l)

/-! ## Ranges -/

variable {full : ℕ → ℕ → K} {s : Shard K} {group : List (Shard K)} {a c row target : ℕ}

lemma Shard.Holds.logitsLocal_eq (h : s.Holds full) (row j : ℕ) :
    s.logitsLocal row j = if j < s.stop - s.start then (full row (s.start + j) : WithBot K) else ⊥ := by
  unfold Shard.logitsLocal
  split_ifs with hj
  · rw [h.eq row j hj]
  · rfl

namespace Sharded

lemma le (h : Sharded full a c group) : a ≤ c := by
  induction h with
  | nil => exact le_rfl
  | cons hs _ ih => exact hs.le.trans ih

lemma holds (h : Sharded full a c group) (hs : s ∈ group) : s.Holds full ∧ a ≤ s.start ∧ s.stop ≤ c := by
  induction h with
  | nil => cases hs
  | cons hhead hl ih =>
    obtain rfl | hs := List.mem_cons.mp hs
    · exact ⟨hhead, le_rfl, hl.le⟩
    · obtain ⟨hs, hlo, hhi⟩ := ih hs
      exact ⟨hs, hhead.le.trans hlo, hhi⟩

/-- Every id is in the range of a rank. -/
lemma exists_shard (h : Sharded full a c group) {v : ℕ} (hlo : a ≤ v) (hhi : v < c) :
    ∃ r, ∃ hr : r < group.length, group[r].start ≤ v ∧ v < group[r].stop := by
  induction h with
  | nil => omega
  | @cons s c l hs hl ih =>
    obtain hlt | hge := Nat.lt_or_ge v s.stop
    · exact ⟨0, Nat.succ_pos _, hlo, hlt⟩
    · obtain ⟨r, hr, hin⟩ := ih hge hhi
      exact ⟨r + 1, Nat.succ_lt_succ hr, hin⟩

/-- The ranges are in the order of the ranks. -/
lemma pairwise (h : Sharded full a c group) : group.Pairwise fun s s' => s.stop ≤ s'.start := by
  induction h with
  | nil => exact .nil
  | cons _ hl ih => exact .cons (fun s' hs' => (hl.holds hs').2.1) ih

end Sharded

variable [Field K] [LinearOrder K]

/-! ## The loss -/

/-- `max(-1)` of a row. -/
def Shard.rowMax (s : Shard K) (row : ℕ) : WithBot K := (Finset.range s.cols).sup (s.logitsLocal row)

/-- The largest logit of the row, on any rank. -/
def groupMax (group : List (Shard K)) (s : Shard K) (row : ℕ) : WithBot K :=
  if 1 < group.length then (group.map fun s => s.rowMax row).foldr max ⊥ else s.rowMax row

/-- `(local - m).exp()`, which is 0 for `-inf`. -/
def weight (exp : K → K) (x m : WithBot K) : K := (WithBot.map₂ (fun x m => exp (x - m)) x m).unbotD 0

/-- The target logit on a rank, and 0 where the target is not in its range. -/
def Shard.targetLogit (s : Shard K) (row target : ℕ) : WithBot K :=
  let idx : ℤ := target - s.start
  if 0 ≤ idx ∧ idx < (s.stop : ℤ) - s.start then s.logitsLocal row (max 0 (min idx (s.cols - 1))).toNat else 0

/-- `vocab_parallel_ce` on a rank, with `⊥` for a loss that is not finite. The sums run over all ranks. -/
def vocabParallelCe (exp log : K → K) (group : List (Shard K)) (s : Shard K) (row target : ℕ) : WithBot K :=
  let m := groupMax group s row
  let sumexp := (group.map fun s => ∑ j ∈ Finset.range s.cols, weight exp (s.logitsLocal row j) m).sum
  let t := (group.map fun s => s.targetLogit row target).sum
  WithBot.map₂ (fun m t => log sumexp + m - t) m t

/-! ## The arg-max -/

/-- The index of `local.float().max(-1)`, for some way `amax` of picking a largest entry. -/
def Shard.pick (amax : ℕ → (ℕ → WithBot K) → ℕ) (s : Shard K) (row : ℕ) : ℕ := amax s.cols (s.logitsLocal row)

/-- The largest logit and its vocabulary id, as two cells of the gathered row. -/
def Shard.cells (amax : ℕ → (ℕ → WithBot K) → ℕ) (s : Shard K) (row : ℕ) : List (WithBot K) :=
  [s.logitsLocal row (s.pick amax row), (((s.pick amax row + s.start : ℕ) : K) : WithBot K)]

/-- `long()`, which cuts off the fraction. -/
def long [FloorRing K] (x : K) : ℤ := if 0 ≤ x then ⌊x⌋ else ⌈x⌉

/-- `vocab_parallel_argmax` on a rank. -/
def vocabParallelArgmax [FloorRing K] (amax : ℕ → (ℕ → WithBot K) → ℕ) (group : List (Shard K)) (s : Shard K)
    (row : ℕ) : ℤ :=
  if group.length = 1 then s.pick amax row + s.start
  else
    let gathered := group.flatMap fun s => s.cells amax row
    let both := fun r c => gathered.getD (r * 2 + c) ⊥
    let best := amax group.length fun r => both r 0
    long ((both best 1).unbotD 0)

/-! ## What the ranks return -/

namespace Sharded

omit [LinearOrder K] in
/-- A sum over the columns of all ranks, where padding adds nothing. -/
lemma sum_eq (h : Sharded full a c group) {f : WithBot K → K} (hf : f ⊥ = 0) (row : ℕ) :
    (group.map fun s => ∑ j ∈ Finset.range s.cols, f (s.logitsLocal row j)).sum =
      ∑ v ∈ Finset.Ico a c, f (full row v) := by
  induction h with
  | nil => rw [List.map_nil, List.sum_nil, Finset.Ico_self, Finset.sum_empty]
  | @cons s c l hs hl ih =>
    rw [List.map_cons, List.sum_cons, ih, ← Finset.sum_Ico_consecutive _ hs.le hl.le,
      Finset.sum_Ico_eq_sum_range _ s.start s.stop]
    congr 1
    symm
    refine Finset.sum_subset_zero_on_sdiff (Finset.range_mono hs.fits) (fun j hj => ?_) fun j hj => ?_
    · rw [Finset.mem_sdiff, Finset.mem_range, Finset.mem_range] at hj
      rw [hs.logitsLocal_eq, if_neg hj.2, hf]
    · rw [hs.logitsLocal_eq, if_pos (Finset.mem_range.mp hj)]

omit [LinearOrder K] in
/-- One rank adds the target logit. -/
lemma sum_targetLogit (h : Sharded full a c group) (row : ℕ) {target : ℕ} (hhi : target < c) :
    (group.map fun s => s.targetLogit row target).sum = if a ≤ target then (full row target : WithBot K) else 0 := by
  induction h with
  | nil => rw [List.map_nil, List.sum_nil, if_neg (by omega)]
  | @cons s c l hs hl ih =>
    have hfits := hs.fits
    rw [List.map_cons, List.sum_cons, ih hhi, Shard.targetLogit]
    obtain hlt | hge := Nat.lt_or_ge target s.start
    · rw [if_neg (by omega), if_neg (by have := hs.le; omega), if_neg (by omega), add_zero]
    · rw [if_pos hge]
      obtain hin | hout := Nat.lt_or_ge target s.stop
      · have hidx : (max 0 (min ((target : ℤ) - s.start) (s.cols - 1))).toNat = target - s.start := by omega
        rw [if_pos (by omega), if_neg (by omega), add_zero, hidx, hs.logitsLocal_eq, if_pos (by omega),
          Nat.add_sub_cancel' hge]
      · rw [if_neg (by omega), if_pos hout, zero_add]

omit [Field K] in
/-- A row has a finite largest logit. -/
lemma exists_groupMax (h : Sharded full 0 c group) (hc : 0 < c) (hs : s ∈ group) (row : ℕ) :
    ∃ m : K, groupMax group s row = m := by
  obtain ⟨r, hr, hlo, hhi⟩ := h.exists_shard (Nat.zero_le 0) hc
  have hreal : (group[r].logitsLocal row 0) ≤ group[r].rowMax row :=
    Finset.le_sup (Finset.mem_range.mpr (h.holds (List.getElem_mem hr)).1.cols_pos)
  rw [(h.holds (List.getElem_mem hr)).1.logitsLocal_eq, if_pos (by omega)] at hreal
  have hle : group[r].rowMax row ≤ groupMax group s row := by
    unfold groupMax
    split_ifs with hlen
    · have hmem : group[r].rowMax row ∈ group.map fun s => s.rowMax row :=
        List.mem_map_of_mem (List.getElem_mem hr)
      generalize group.map (fun s => s.rowMax row) = l at hmem
      induction l with
      | nil => cases hmem
      | cons x l ih =>
        obtain hx | hmem := List.mem_cons.mp hmem
        · exact hx.le.trans (le_max_left _ _)
        · exact (ih hmem).trans (le_max_right _ _)
    · obtain ⟨i, hi, rfl⟩ := List.mem_iff_getElem.mp hs
      have hir : i = r := by omega
      subst hir
      exact le_rfl
  refine WithBot.ne_bot_iff_exists.mp (fun hbot => ?_) |>.imp fun m hm => hm.symm
  rw [hbot] at hle
  exact (WithBot.bot_lt_coe _).not_ge (hreal.trans hle)

end Sharded

omit [LinearOrder K] in
lemma weight_bot (exp : K → K) (m : WithBot K) : weight exp ⊥ m = 0 := by
  cases m <;> rfl

/-- Each rank returns the loss of the whole row. -/
theorem vocabParallelCe_eq {full : ℕ → ℕ → ℝ} {group : List (Shard ℝ)} (h : Sharded full 0 c group) (ht : target < c)
    {s : Shard ℝ} (hs : s ∈ group) (row : ℕ) :
    vocabParallelCe Real.exp Real.log group s row target =
      ((Real.log (∑ v ∈ Finset.range c, Real.exp (full row v)) - full row target : ℝ) : WithBot ℝ) := by
  obtain ⟨m, hm⟩ := h.exists_groupMax (by omega) hs row
  have hsum : (group.map fun s => ∑ j ∈ Finset.range s.cols, weight Real.exp (s.logitsLocal row j) m).sum =
      (∑ v ∈ Finset.range c, Real.exp (full row v)) * Real.exp (-m) := by
    rw [h.sum_eq (f := fun x => weight Real.exp x m) (weight_bot Real.exp m) row, ← Finset.range_eq_Ico, Finset.sum_mul]
    refine Finset.sum_congr rfl fun v _ => ?_
    rw [← Real.exp_add, ← sub_eq_add_neg]
    rfl
  have hpos : 0 < ∑ v ∈ Finset.range c, Real.exp (full row v) :=
    Finset.sum_pos (fun v _ => Real.exp_pos _) ⟨target, Finset.mem_range.mpr ht⟩
  have hlog : Real.log ((∑ v ∈ Finset.range c, Real.exp (full row v)) * Real.exp (-m)) =
      Real.log (∑ v ∈ Finset.range c, Real.exp (full row v)) - m := by
    rw [Real.log_mul hpos.ne' (Real.exp_pos _).ne', Real.log_exp, sub_eq_add_neg]
  rw [vocabParallelCe, hm, hsum, h.sum_targetLogit row ht, if_pos (Nat.zero_le target), hlog]
  change ((_ - m + m - full row target : ℝ) : WithBot ℝ) = _
  rw [sub_add_cancel]

/-! ## The picked id -/

section Argmax
variable {amax : ℕ → (ℕ → WithBot K) → ℕ}

omit [LinearOrder K] in
/-- The gathered cells of the ranks, in pairs. -/
lemma getD_cells (group : List (Shard K)) (row : ℕ) {r : ℕ} (hr : r < group.length) :
    (group.flatMap fun s => s.cells amax row).getD (r * 2) ⊥ = group[r].logitsLocal row (group[r].pick amax row) ∧
      (group.flatMap fun s => s.cells amax row).getD (r * 2 + 1) ⊥ =
        (((group[r].pick amax row + group[r].start : ℕ) : K) : WithBot K) := by
  induction group generalizing r with
  | nil => cases hr
  | cons s group ih =>
    cases r with
    | zero => exact ⟨rfl, rfl⟩
    | succ r =>
      rw [Nat.succ_mul]
      exact ih (Nat.lt_of_succ_lt_succ hr)

lemma long_natCast [FloorRing K] [IsStrictOrderedRing K] (n : ℕ) : long (n : K) = n := by
  rw [long, if_pos (Nat.cast_nonneg n), Int.floor_natCast]

/-- The rank whose pick all ranks return. -/
structure Best (amax : ℕ → (ℕ → WithBot K) → ℕ) (group : List (Shard K)) (row : ℕ) (best : Shard K) (r : ℕ) : Prop where
  get : group[r]? = some best
  top : ∀ s ∈ group, s.logitsLocal row (s.pick amax row) ≤ best.logitsLocal row (best.pick amax row)
  first : (∀ n f j, j < amax n f → f j < f (amax n f)) → ∀ r', r' < r → ∀ s, group[r']? = some s →
    s.logitsLocal row (s.pick amax row) < best.logitsLocal row (best.pick amax row)

variable (hamax : ∀ n f, 0 < n → amax n f < n ∧ ∀ j < n, f j ≤ f (amax n f))
include hamax

lemma exists_best [FloorRing K] [IsStrictOrderedRing K] (hne : 0 < group.length) (row : ℕ) :
    ∃ best r, Best amax group row best r ∧
      ∀ s ∈ group, vocabParallelArgmax amax group s row = (best.pick amax row + best.start : ℕ) := by
  by_cases hone : group.length = 1
  · obtain ⟨best, rfl⟩ := List.length_eq_one_iff.mp hone
    refine ⟨best, 0, ⟨rfl, fun s hs => ?_, fun _ r hr => absurd hr (Nat.not_lt_zero r)⟩, fun s hs => ?_⟩
    · rw [List.mem_singleton.mp hs]
    · rw [List.mem_singleton.mp hs, vocabParallelArgmax, if_pos hone, Nat.cast_add]
  · let both := fun r c => (group.flatMap fun s => s.cells amax row).getD (r * 2 + c) ⊥
    have hboth : ∀ r, ∀ hr : r < group.length, both r 0 = group[r].logitsLocal row (group[r].pick amax row) :=
      fun r hr => (getD_cells group row hr).1
    obtain ⟨hlt, htop⟩ := hamax group.length (fun r => both r 0) hne
    refine ⟨group[amax group.length fun r => both r 0], _, ⟨List.getElem?_eq_getElem hlt, fun s hs => ?_, ?_⟩,
      fun s _ => ?_⟩
    · obtain ⟨r, hr, rfl⟩ := List.mem_iff_getElem.mp hs
      have hle := htop r hr
      rwa [hboth _ hr, hboth _ hlt] at hle
    · intro hfirst r hr s hs
      obtain ⟨hr', rfl⟩ := List.getElem?_eq_some_iff.mp hs
      have h := hfirst group.length (fun r => both r 0) r hr
      rwa [hboth _ hr', hboth _ hlt] at h
    · rw [vocabParallelArgmax, if_neg hone]
      change long ((both _ 1).unbotD 0) = _
      rw [show both _ 1 = _ from (getD_cells group row hlt).2, WithBot.unbotD_coe, long_natCast]

omit [Field K] in
/-- The largest logit of a rank is at least each of its real ones, and it is one of them if it is finite. -/
lemma Shard.Holds.pick_spec (h : s.Holds full) (row : ℕ) :
    (∀ j < s.stop - s.start, (full row (s.start + j) : WithBot K) ≤ s.logitsLocal row (s.pick amax row)) ∧
      (s.logitsLocal row (s.pick amax row) ≠ ⊥ → s.pick amax row < s.stop - s.start) := by
  obtain ⟨-, hmax⟩ := hamax s.cols (s.logitsLocal row) h.cols_pos
  constructor
  · intro j hj
    have hle := hmax j (hj.trans_le h.fits)
    rwa [h.logitsLocal_eq row j, if_pos hj] at hle
  · intro hne
    rw [h.logitsLocal_eq] at hne
    by_contra hout
    exact hne (if_neg hout)

/-- All ranks return an id of the largest logit, and the first one if the picks are first ones. -/
theorem vocabParallelArgmax_eq [FloorRing K] [IsStrictOrderedRing K] (h : Sharded full 0 c group) (hc : 0 < c) (row : ℕ) :
    ∃ id : ℕ, (∀ s ∈ group, vocabParallelArgmax amax group s row = id) ∧ id < c ∧
      (∀ v < c, full row v ≤ full row id) ∧
      ((∀ n f j, j < amax n f → f j < f (amax n f)) → ∀ v < id, full row v < full row id) := by
  have hne : 0 < group.length := by
    obtain ⟨r, hr, -⟩ := h.exists_shard (Nat.zero_le 0) hc
    omega
  obtain ⟨best, r, hbest, heq⟩ := exists_best hamax hne row
  have hmem : best ∈ group := List.mem_of_getElem? hbest.get
  obtain ⟨hholds, -, hstop⟩ := h.holds hmem
  -- the logit of an id is below the pick of its rank
  have hle : ∀ v < c, (full row v : WithBot K) ≤ best.logitsLocal row (best.pick amax row) := fun v hv => by
    obtain ⟨r', hr', hlo, hhi⟩ := h.exists_shard (Nat.zero_le v) hv
    have hin := List.getElem_mem hr'
    have hpick := ((h.holds hin).1.pick_spec hamax row).1 (v - group[r'].start) (by omega)
    rw [Nat.add_sub_cancel' hlo] at hpick
    exact hpick.trans (hbest.top _ hin)
  have hreal := (hholds.pick_spec hamax row).2 fun hbot => (WithBot.bot_lt_coe (full row 0)).not_ge (hbot ▸ hle 0 hc)
  have hval : best.logitsLocal row (best.pick amax row) = (full row (best.pick amax row + best.start) : WithBot K) := by
    rw [hholds.logitsLocal_eq, if_pos hreal, Nat.add_comm]
  rw [hval] at hle
  refine ⟨best.pick amax row + best.start, heq, by omega, fun v hv => WithBot.coe_le_coe.mp (hle v hv), ?_⟩
  intro hfirst v hv
  obtain ⟨r', hr', hlo, hhi⟩ := h.exists_shard (Nat.zero_le v) (by omega)
  have hin := List.getElem_mem hr'
  obtain ⟨hr, hget⟩ := List.getElem?_eq_some_iff.mp hbest.get
  obtain hlt | rfl | hgt := Nat.lt_trichotomy r' r
  · have hpick := ((h.holds hin).1.pick_spec hamax row).1 (v - group[r'].start) (by omega)
    have hless := hbest.first hfirst r' hlt _ (List.getElem?_eq_getElem hr')
    rw [Nat.add_sub_cancel' hlo] at hpick
    rw [hval] at hless
    exact WithBot.coe_lt_coe.mp (hpick.trans_lt hless)
  · rw [hget] at hlo hhi
    have hless := hfirst best.cols (best.logitsLocal row) (v - best.start) (by
      change _ < best.pick amax row
      omega)
    change best.logitsLocal row _ < best.logitsLocal row (best.pick amax row) at hless
    rw [hval, hholds.logitsLocal_eq, if_pos (by omega), Nat.add_sub_cancel' hlo] at hless
    exact WithBot.coe_lt_coe.mp hless
  · have hord := (List.pairwise_iff_getElem.mp h.pairwise) r r' hr hr' hgt
    rw [hget] at hord
    omega

end Argmax

/-- The loss and the arg-max of a row, on every rank. -/
theorem vocabParallel_eq {full : ℕ → ℕ → ℝ} {group : List (Shard ℝ)} {c : ℕ} (h : Sharded full 0 c group)
    {amax : ℕ → (ℕ → WithBot ℝ) → ℕ} (hamax : ∀ n f, 0 < n → amax n f < n ∧ ∀ j < n, f j ≤ f (amax n f)) (row : ℕ) :
    (∀ target < c, ∀ s ∈ group, vocabParallelCe Real.exp Real.log group s row target =
      ((Real.log (∑ v ∈ Finset.range c, Real.exp (full row v)) - full row target : ℝ) : WithBot ℝ)) ∧
    (0 < c → ∃ id : ℕ, (∀ s ∈ group, vocabParallelArgmax amax group s row = id) ∧ id < c ∧
      (∀ v < c, full row v ≤ full row id) ∧
      ((∀ n f j, j < amax n f → f j < f (amax n f)) → ∀ v < id, full row v < full row id)) := by
  constructor
  · exact fun target ht s hs => vocabParallelCe_eq h ht hs row
  · exact fun hc => vocabParallelArgmax_eq hamax h hc row

/-- Two ranks with two ids and one id, in three columns each. -/
noncomputable def twoRanks : List (Shard ℝ) := [⟨0, 2, 3, fun _ j => j⟩, ⟨2, 3, 3, fun _ j => (2 + j : ℕ)⟩]

lemma sharded_twoRanks : Sharded (fun _ v => (v : ℝ)) 0 3 twoRanks := by
  have hfirst : Shard.Holds (⟨0, 2, 3, fun _ j => j⟩ : Shard ℝ) fun _ v => (v : ℝ) := by
    refine ⟨Nat.zero_le 2, Nat.le_succ 2, Nat.succ_pos 2, fun _ j _ => ?_⟩
    rw [Nat.zero_add]
  have hsecond : Shard.Holds (⟨2, 3, 3, fun _ j => (2 + j : ℕ)⟩ : Shard ℝ) fun _ v => (v : ℝ) :=
    ⟨Nat.le_succ 2, Nat.le_add_left 1 2, Nat.succ_pos 2, fun _ _ _ => rfl⟩
  exact .cons hfirst (.cons hsecond (.nil 3))

theorem vocabParallel_twoRanks :
    vocabParallelCe Real.exp Real.log twoRanks ⟨0, 2, 3, fun _ j => j⟩ 0 2 =
      ((Real.log (∑ v ∈ Finset.range 3, Real.exp v) - (2 : ℕ) : ℝ) : WithBot ℝ) :=
  (vocabParallel_eq sharded_twoRanks (fun _ f hn => Lib.firstMax_spec f hn) 0).1 2 (by decide) _ List.mem_cons_self

end SuffixHybrid.Tune
