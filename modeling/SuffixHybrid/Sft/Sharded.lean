import Mathlib.Analysis.Real.Sqrt
import SuffixHybrid.Sft.Norm

/-!
# The sharded optimizer step

The ranks keep their shards of what the reference holds (`Shards`): a backward pass adds the slices of the whole
gradient, and a step with the norm of the whole gradient is the reference's on each of its places (`Shards.adamW`).
The norm is the whole one exactly when no replicated adapter has a gradient or there is one rank (`norm_iff`), and so
the run follows the reference exactly when that holds in every step (`ranks_follow_iff`).
-/

namespace SuffixHybrid.SftWorker

open Finset Lib Lora

variable {m n : ℕ} {ads : Fin m → LoRA} {K : Type} [Field K]

/-- The values of the ranks are the shards of the values of the whole. -/
def Agree (ads : Fin m → LoRA) (x : Fin (n + 1) → ℕ → K) (y : ℕ → K) : Prop :=
  ∀ r key, ∀ i < size ads key, x r (start ads key + i) = y (wholeAt ads (n + 1) r key i)

/-- The ranks hold the shards of the reference, and the slices of its gradient. -/
structure Shards (ads : Fin m → LoRA) (p : Pair n K) : Prop where
  flat : Agree ads (fun r => (p.ranks r).flat) p.reference.flat
  master : Agree ads (fun r => (p.ranks r).master) p.reference.master
  m : Agree ads (fun r => (p.ranks r).m) p.reference.m
  v : Agree ads (fun r => (p.ranks r).v) p.reference.v
  t : ∀ r, (p.ranks r).t = p.reference.t
  noGrad : p.reference.grad = none → ∀ r, (p.ranks r).grad = none
  grad : ∀ G, p.reference.grad = some G → ∃ l, (∀ r, (p.ranks r).grad = some (l r)) ∧ Sliced ads l G

/-! ## The start and the backward pass -/

lemma Run.init_at (factor : Key m → ℕ → K) (key : Key m) {i : ℕ} (hi : i < size ads key) :
    (Run.init ads factor).flat (start ads key + i) = factor key i :=
  fillAll_at (fun key i _ => factor key i) (fun _ => 0) (start_mem key) hi

lemma Shards.init (factor : Key m → ℕ → K) : Shards ads (Pair.init ads n factor) := by
  have hflat : Agree ads (fun r => ((Pair.init ads n factor).ranks r).flat) (Pair.init ads n factor).reference.flat :=
    fun r key i hi => (Run.init_at _ key hi).trans (Run.init_at factor key (glob_lt r.isLt hi)).symm
  exact ⟨hflat, hflat, fun _ _ _ _ => rfl, fun _ _ _ _ => rfl, fun _ => rfl, fun _ _ => rfl, fun G h => by cases h⟩

lemma Sliced.add {l l' : Fin (n + 1) → ℕ → K} {G G' : ℕ → K} (h : Sliced ads l G) (h' : Sliced ads l' G') :
    Sliced ads (fun r p => l r p + l' r p) fun p => G p + G' p where
  summed key hred i hi := by rw [sum_add_distrib, h.summed key hred i hi, h'.summed key hred i hi]
  exact key hred i hi r := by rw [h.exact key hred i hi r, h'.exact key hred i hi r]

/-- A backward pass on all ranks and on the reference. -/
lemma Shards.backward {p : Pair n K} (h : Shards ads p) (g : Grads ads n K) :
    Shards ads ⟨fun r => (p.ranks r).backward (g.loc r), fun r => (p.ref r).backward g.whole⟩ := by
  refine ⟨h.flat, h.master, h.m, h.v, h.t, fun hnone => ?_, fun G hG => ?_⟩
  · have hback : (p.reference.backward g.whole).grad = none := hnone
    cases hgrad : p.reference.grad <;> simp only [Run.backward, hgrad, reduceCtorEq] at hback
  · have hback : (p.reference.backward g.whole).grad = some G := hG
    cases hgrad : p.reference.grad with
    | none =>
      simp only [Run.backward, hgrad, Option.some.injEq] at hback
      subst hback
      exact ⟨g.loc, fun r => by simp only [Run.backward, h.noGrad hgrad r], g.sliced⟩
    | some G0 =>
      simp only [Run.backward, hgrad, Option.some.injEq] at hback
      subst hback
      obtain ⟨l, hl, hsl⟩ := h.grad G0 hgrad
      exact ⟨fun r p => l r p + g.loc r p, fun r => by simp only [Run.backward, hl r], hsl.add g.sliced⟩

/-! ## The step -/

/-- One rank has the whole gradient. -/
lemma normSq_one (ads : Fin m → LoRA) (world : ℕ) (g : Fin 1 → ℕ → K) (r : Fin 1) :
    reduceRep (whole ads world) g r = g r ∧
      normSq (whole ads world) g r = ∑ p ∈ range (off (whole ads world)), g r p ^ 2 := by
  have hred : reduceRep (whole ads world) g r = g r := funext fun p => if_neg fun h => by omega
  refine ⟨hred, ?_⟩
  rw [normSq, nRep_whole, ← range_eq_Ico]
  simp only [hred, range_zero, sum_empty, zero_add, Nat.lt_irrefl, if_false]

section
variable [LinearOrder K]

/-- The step with the gradients at hand. -/
lemma stepAll_eq {W : ℕ} (cfg : Config K) {runs : Fin W → Run K} {g : Fin W → ℕ → K}
    (hg : ∀ r, (runs r).grad = some (g r)) : stepAll ads cfg runs =
      .ok (fun r => (runs r).adamW ads cfg (reduceRep ads g r) (cfg.root (normSq ads g r)),
        fun r => cfg.root (normSq ads g r)) := by
  have hsome : ∀ r, (runs r).grad.isSome := fun r => by rw [hg r]; rfl
  have hget : (fun r => (runs r).grad.get (hsome r)) = g := funext fun r => Option.get_of_eq_some _ (hg r)
  rw [stepAll, dif_pos hsome]
  simp only [hget, reduceGrads]

lemma lrVec_at (cfg : Config K) (key : Key m) {i : ℕ} (hi : i < size ads key) :
    lrVec ads cfg (start ads key + i) = if key.2 = .B then cfg.lr * cfg.lrBRatio else cfg.lr :=
  fillAll_at (fun (key : Key m) _ lr => if key.2 = .B then cfg.lr * cfg.lrBRatio else lr) (fun _ => cfg.lr)
    (start_mem key) hi

lemma lrVec_wholeAt (cfg : Config K) (r : Fin (n + 1)) (key : Key m) {i : ℕ} (hi : i < size ads key) :
    lrVec (whole ads (n + 1)) cfg (wholeAt ads (n + 1) r key i) = lrVec ads cfg (start ads key + i) := by
  rw [lrVec_at cfg key hi]
  exact lrVec_at cfg key (glob_lt r.isLt hi)

/-- A step with one norm keeps the shards. -/
lemma Shards.adamW {p : Pair n K} (h : Shards ads p) (cfg : Config K) {l : Fin (n + 1) → ℕ → K} {G : ℕ → K}
    (hl : Sliced ads l G) {norms : Fin (n + 1) → K} {norm : K} (hnorm : ∀ r, norms r = norm) :
    Shards ads (⟨fun r => (p.ranks r).adamW ads cfg (reduceRep ads l r) (norms r),
      fun r => (p.ref r).adamW (whole ads (n + 1)) cfg G norm⟩ : Pair n K) := by
  have hmaster : Agree ads (fun r => ((p.ranks r).adamW ads cfg (reduceRep ads l r) (norms r)).master)
      (p.reference.adamW (whole ads (n + 1)) cfg G norm).master := fun r key i hi => by
    have hm := h.m r key i hi
    have hv := h.v r key i hi
    have hmas := h.master r key i hi
    have hlr := lrVec_wholeAt cfg r key hi
    dsimp only at hm hv hmas
    simp only [Run.adamW, hnorm r, h.t r, hl.reduceRep_at r key hi, hm, hv, hmas, hlr]
  refine ⟨hmaster, hmaster, fun r key i hi => ?_, fun r key i hi => ?_, fun r => congrArg (· + 1) (h.t r), fun _ _ => rfl,
    fun G hG => by cases hG⟩
  · have hm := h.m r key i hi
    dsimp only at hm
    simp only [Run.adamW, hnorm r, hl.reduceRep_at r key hi, hm]
  · have hv := h.v r key i hi
    dsimp only at hv
    simp only [Run.adamW, hnorm r, hl.reduceRep_at r key hi, hv]

/-! ## The norm -/

/-- The step of the reference's gradient is not counted more than once: there is one rank, or the replicated adapters
have no gradient. -/
def CountedOnce (ads : Fin m → LoRA) (n : ℕ) (G : ℕ → K) : Prop :=
  n = 0 ∨ ∀ key, (ads key.1).kind = .rep → ∀ i < size ads key, G (start (whole ads (n + 1)) key + i) = 0

lemma Root.root_inj (c : Root K) {x y : K} (hx : 0 ≤ x) (hy : 0 ≤ y) : c.root x = c.root y ↔ x = y :=
  ⟨fun h => by rw [← c.root_mul x hx, ← c.root_mul y hy, h], congrArg c.root⟩

variable [IsStrictOrderedRing K]

lemma squares_nonneg (world : ℕ) (G : ℕ → K) (key : Key m) : 0 ≤ squares ads world G key :=
  sum_nonneg fun _ _ => sq_nonneg _

/-- The ranks take the norm of the whole gradient when nothing is counted twice. -/
theorem norm_iff (c : Root K) {l : Fin (n + 1) → ℕ → K} {G : ℕ → K} (h : Sliced ads l G) :
    (∀ r, c.root (normSq ads l r) = c.root (∑ p ∈ range (off (whole ads (n + 1))), G p ^ 2)) ↔ CountedOnce ads n G := by
  have hsum : 0 ≤ ∑ key with (ads key.1).kind = .rep, squares ads (n + 1) G key :=
    sum_nonneg fun key _ => squares_nonneg _ G key
  have hwhole : 0 ≤ ∑ p ∈ range (off (whole ads (n + 1))), G p ^ 2 := sum_nonneg fun p _ => sq_nonneg (G p)
  have hextra : 0 ≤ (n : K) * ∑ key with (ads key.1).kind = .rep, squares ads (n + 1) G key :=
    mul_nonneg (Nat.cast_nonneg n) hsum
  simp only [normSq_eq h, c.root_inj (add_nonneg hwhole hextra) hwhole, add_eq_left, forall_const, mul_eq_zero,
    Nat.cast_eq_zero]
  refine or_congr_right ?_
  rw [sum_eq_zero_iff_of_nonneg fun key _ => squares_nonneg _ G key]
  refine forall_congr' fun key => ?_
  rw [mem_filter_univ]
  refine forall_congr' fun hkind => ?_
  rw [squares, sum_eq_zero_iff_of_nonneg fun i _ => sq_nonneg _, (shared_eq (.inr hkind) _).1]
  simp only [mem_range, pow_eq_zero_iff two_ne_zero]

/-! ## Runs -/

omit [IsStrictOrderedRing K] in
/-- What is asked of a step: the norm of the whole gradient on every rank, the shards of the reference's parameters,
and one value of the factors that all ranks hold. -/
structure StepOf (ads : Fin m → LoRA) (cfg : Config K) (G : ℕ → K) (out : (Fin (n + 1) → Run K) × (Fin (n + 1) → K))
    (ref : Fin 1 → Run K) : Prop where
  norm : ∀ r, out.2 r = cfg.root (∑ p ∈ range (off (whole ads (n + 1))), G p ^ 2)
  shards : Agree ads (fun r => (out.1 r).flat) (ref ⟨0, Nat.one_pos⟩).flat
  replicated : ∀ key, reduced ads key = true ∨ (ads key.1).kind = .rep → ∀ i < size ads key, ∀ r r',
    (out.1 r).flat (start ads key + i) = (out.1 r').flat (start ads key + i)

/-- An operation of the ranks is that of the reference. -/
def Exact (ads : Fin m → LoRA) (cfg : Config K) (p : Pair n K) : Op ads n K → Prop
  | .backward _ => True
  | .step => ∀ G, p.reference.grad = some G → ∃ out ref, stepAll ads cfg p.ranks = .ok out ∧
      stepAll (whole ads (n + 1)) cfg p.ref = .ok ref ∧ StepOf ads cfg G out ref.1

/-- A step counts nothing twice. -/
def Once (ads : Fin m → LoRA) (p : Pair n K) : Op ads n K → Prop
  | .backward _ => True
  | .step => ∀ G, p.reference.grad = some G → CountedOnce ads n G

omit [IsStrictOrderedRing K] in
/-- The step of both with the gradients at hand. -/
lemma Shards.steps {p : Pair n K} (h : Shards ads p) (cfg : Config K) {G : ℕ → K} (hG : p.reference.grad = some G) :
    ∃ l, Sliced ads l G ∧ stepAll ads cfg p.ranks = .ok (fun r => (p.ranks r).adamW ads cfg (reduceRep ads l r)
        (cfg.root (normSq ads l r)), fun r => cfg.root (normSq ads l r)) ∧
      stepAll (whole ads (n + 1)) cfg p.ref =
        .ok (fun r => (p.ref r).adamW (whole ads (n + 1)) cfg G (cfg.root (∑ p ∈ range (off (whole ads (n + 1))), G p ^ 2)),
          fun _ => cfg.root (∑ p ∈ range (off (whole ads (n + 1))), G p ^ 2)) := by
  obtain ⟨l, hl, hsl⟩ := h.grad G hG
  refine ⟨l, hsl, stepAll_eq cfg hl, ?_⟩
  rw [stepAll_eq (g := fun _ => G) cfg fun r => by rw [Fin.eq_zero r]; exact hG]
  simp only [normSq_one ads (n + 1) fun _ => G]

/-- A step is exact when it counts nothing twice, and then the shards stay. -/
lemma step_iff (cfg : Config K) {p : Pair n K} (h : Shards ads p) (op : Op ads n K) :
    (Exact ads cfg p op ↔ Once ads p op) ∧
      (Exact ads cfg p op → ∀ p', p.step ads cfg op = some p' → Shards ads p') := by
  cases op with
  | backward g =>
    refine ⟨Iff.rfl, fun _ p' hp' => ?_⟩
    cases hp'
    exact h.backward g
  | step =>
    cases hG : p.reference.grad with
    | none =>
      have hraise : stepAll ads cfg p.ranks = .error "RuntimeError: step without gradients" :=
        dif_neg fun hsome => by
          have hzero := hsome 0
          rw [h.noGrad hG 0] at hzero
          cases hzero
      refine ⟨by simp [Exact, Once, hG], fun _ p' hp' => ?_⟩
      simp [Pair.step, hraise, Except.toOption] at hp'
    | some G =>
      obtain ⟨l, hsl, hranks, href⟩ := h.steps cfg hG
      have hkeep (hnorm : ∀ r, cfg.root (normSq ads l r) =
          cfg.root (∑ p ∈ range (off (whole ads (n + 1))), G p ^ 2)) := h.adamW cfg hsl hnorm
      have hexact (he : Exact ads cfg p .step) : ∀ r, cfg.root (normSq ads l r) =
          cfg.root (∑ p ∈ range (off (whole ads (n + 1))), G p ^ 2) := fun r => by
        obtain ⟨out, ref, hout, -, hstep⟩ := he G hG
        rw [hranks] at hout
        cases hout
        exact hstep.norm r
      refine ⟨⟨fun he G' hG' => ?_, fun honce G' hG' => ?_⟩, fun he p' hp' => ?_⟩
      · obtain rfl := Option.some.inj (hG.symm.trans hG')
        exact (norm_iff cfg.toRoot hsl).mp (hexact he)
      · obtain rfl := Option.some.inj (hG.symm.trans hG')
        have hnorm := (norm_iff cfg.toRoot hsl).mpr (honce G hG)
        have hflat := (hkeep hnorm).flat
        refine ⟨_, _, hranks, href, hnorm, hflat, fun key hshared i hi r r' => ?_⟩
        have hat := (shared_eq hshared (n + 1)).2
        exact (hflat r key i hi).trans ((congrArg _ ((hat r i).trans (hat r' i).symm)).trans (hflat r' key i hi).symm)
      · simp only [Pair.step, hranks, href, Except.toOption, Option.bind_eq_bind, Option.bind_some, Option.some.injEq] at hp'
        subst hp'
        exact hkeep (hexact he)

/-- The ranks follow the reference exactly when no step counts a gradient twice. -/
theorem ranks_follow_iff (ads : Fin m → LoRA) (cfg : Config K) (factor : Key m → ℕ → K) (ops : List (Op ads n K)) :
    Along (Pair.step ads cfg) (Exact ads cfg) (.init ads n factor) ops ↔
      Along (Pair.step ads cfg) (fun p => Once ads p) (.init ads n factor) ops :=
  Along.iff_of_inv (fun _ op h => step_iff cfg h op) (Shards.init factor) ops

end

/-! ## Two ranks with a replicated adapter -/

/-- One replicated adapter of rank one. -/
def toyAds (_ : Fin 1) : LoRA := ⟨.rep, 1, 1, 1⟩

/-- Its gradient on both ranks. -/
noncomputable def toyGrads : Grads toyAds 1 ℝ where
  loc _ p := ((if p = 0 then 3 else 4 : ℕ) : ℝ)
  whole p := ((if p = 0 then 3 else 4 : ℕ) : ℝ)
  sliced := ⟨fun key hred => absurd hred (by rw [reduced]; simp [toyAds, Kind.replicatedFactor]),
    fun key _ i _ r => by rw [(shared_eq (.inr rfl) 2).2 r i]; rfl⟩

/-- Clipping at 1, without weight decay. -/
noncomputable def toyConfig : Config ℝ where
  root := Real.sqrt
  root_nonneg := Real.sqrt_nonneg
  root_mul _ h := Real.mul_self_sqrt h
  lr := 1
  weightDecay := 0
  clip := 1
  lrBRatio := 1

theorem ranks_follow_iff_toy :
    Along (Pair.step toyAds toyConfig) (Exact toyAds toyConfig) (.init toyAds 1 fun _ _ => 0)
        [.backward toyGrads, .step, .backward toyGrads, .step] ↔
      Along (Pair.step toyAds toyConfig) (fun p => Once toyAds p) (.init toyAds 1 fun _ _ => 0)
        [.backward toyGrads, .step, .backward toyGrads, .step] :=
  ranks_follow_iff toyAds toyConfig (fun _ _ => 0) [.backward toyGrads, .step, .backward toyGrads, .step]

/-- The squares of the adapter are counted on both ranks. -/
theorem replicated_counted_twice :
    ∃ p, (Pair.init toyAds 1 fun _ _ => 0).step toyAds toyConfig (.backward toyGrads) = some p ∧
      ¬Exact toyAds toyConfig p .step := by
  have hinit : Shards toyAds (Pair.init toyAds 1 fun _ _ => (0 : ℝ)) := Shards.init fun _ _ => 0
  have hsh := hinit.backward toyGrads
  refine ⟨_, rfl, fun he => ?_⟩
  obtain h | h := (step_iff toyConfig hsh .step).1.mp he toyGrads.whole rfl
  · cases h
  · have hzero := h (0, .A) rfl 0 Nat.one_pos
    have hstart : start (whole toyAds 2) (0, .A) = 0 := by decide
    rw [hstart] at hzero
    norm_num [toyGrads] at hzero

end SuffixHybrid.SftWorker
