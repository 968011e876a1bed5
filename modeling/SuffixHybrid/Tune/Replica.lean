import Mathlib.Algebra.BigOperators.Fin
import Mathlib.Algebra.Order.BigOperators.Group.Finset
import Mathlib.Algebra.Order.Ring.Basic
import Mathlib.Analysis.Real.Sqrt
import Mathlib.Tactic.Linarith
import SuffixHybrid.Lib.Run
import SuffixHybrid.Tune.Shard

/-!
# Sharded and whole training

`allreduce_grads` makes the gradients of every rank those of the whole, but each rank clips by the norm
of its own part. `scale_iff` says when all ranks apply the scale of the whole: nothing is clipped, or
no rank has anything that another one lacks. Under this condition, and only under it, the ranks hold
the slices of the reference behind every step (`sharded_iff`); `replicas_diverge` is a step in which
the two ranks end with different values of a replicated element.
-/

namespace SuffixHybrid.Lora
open Lib

variable {K σ B : Type} {m n : ℕ} {ads : Fin m → Adapter}

/-! ## Slices of the whole -/

lemma glob_injective (r : Fin (n + 1)) : Function.Injective (glob r : Elem ads → Whole ads n) := by
  intro e e' h
  exact (Prod.ext_iff.mp (Subtype.ext_iff.mp h)).1

/-- An element that the ranks share is the same on all of them. -/
lemma glob_shared {e : Elem ads} (h : e.sharded = false) (r r' : Fin (n + 1)) :
    glob r e = glob r' e := by
  apply Subtype.ext
  simp [glob, h]

/-- An element whose gradients are summed is one that the ranks share. -/
lemma sharded_of_reduced {e : Elem ads} (h : e.reduced = true) : e.sharded = false := by
  simp [Elem.sharded, h]

/-- The elements of the whole that a rank does not hold are those of another one. -/
lemma notMem_range_glob {r : Fin (n + 1)} {w : Whole ads n} (h : w ∉ Set.range (glob r)) :
    ∃ t, w.1.2 = some t ∧ t ≠ r := by
  obtain ⟨⟨e, o⟩, hw⟩ := w
  cases o with
  | none =>
    refine absurd ⟨e, Subtype.ext ?_⟩ h
    have hsh : e.sharded = false := hw.symm
    simp [glob, hsh]
  | some t =>
    refine ⟨t, rfl, ?_⟩
    rintro rfl
    refine h ⟨e, Subtype.ext ?_⟩
    have hsh : e.sharded = true := hw.symm
    simp [glob, hsh]

/-- An element of one rank is not among those of another. -/
lemma notMem_range_of_ne {r t : Fin (n + 1)} {w : Whole ads n} (h : w.1.2 = some t) (ht : t ≠ r) :
    w ∉ Set.range (glob r) := by
  rintro ⟨e, rfl⟩
  simp only [glob] at h
  split at h
  · exact ht (Option.some.inj h).symm
  · cases h

section
variable [Field K]

/-- The squares of a rank and the squares of the elements that it does not hold. -/
lemma sum_whole (r : Fin (n + 1)) (G : Whole ads n → K) :
    ∑ w, G w ^ 2 = ∑ e, G (glob r e) ^ 2 + ∑ w ∈ (Finset.univ.image (glob r))ᶜ, G w ^ 2 := by
  rw [← Finset.sum_add_sum_compl (Finset.univ.image (glob r)) fun w => G w ^ 2]
  rw [Finset.sum_image fun e _ e' _ h => glob_injective r h]

variable [LinearOrder K] [IsStrictOrderedRing K]

lemma sum_le_whole (r : Fin (n + 1)) (G : Whole ads n → K) :
    ∑ e, G (glob r e) ^ 2 ≤ ∑ w, G w ^ 2 := by
  rw [sum_whole r G]
  exact le_add_of_nonneg_right (Finset.sum_nonneg fun w _ => sq_nonneg (G w))

/-- A rank has the squares of the whole when the elements of the others are zero. -/
lemma sum_eq_whole_iff (r : Fin (n + 1)) (G : Whole ads n → K) :
    ∑ e, G (glob r e) ^ 2 = ∑ w, G w ^ 2 ↔ ∀ w t, w.1.2 = some t → t ≠ r → G w = 0 := by
  rw [sum_whole r G, left_eq_add, Finset.sum_eq_zero_iff_of_nonneg fun w _ => sq_nonneg (G w)]
  constructor
  · intro h w t hw ht
    have hmem : w ∈ (Finset.univ.image (glob r))ᶜ := by
      simpa using notMem_range_of_ne hw ht
    exact pow_eq_zero_iff two_ne_zero |>.mp (h w hmem)
  · intro h w hw
    have hrange : w ∉ Set.range (glob r) := by simpa using hw
    obtain ⟨t, hw', ht⟩ := notMem_range_glob hrange
    rw [h w t hw' ht, zero_pow two_ne_zero]

/-! ## The scale -/

lemma Clip.root_lt (c : Clip K) {x y : K} (hx : 0 ≤ x) (h : x < y) : c.root x < c.root y := by
  by_contra hle
  rw [not_lt] at hle
  have hsq : c.root y * c.root y ≤ c.root x * c.root x :=
    mul_le_mul hle hle (c.root_nonneg y) (c.root_nonneg x)
  rw [c.root_mul x hx, c.root_mul y (hx.trans h.le)] at hsq
  exact absurd h (not_lt.mpr hsq)

lemma Clip.root_le (c : Clip K) {x y : K} (hx : 0 ≤ x) (h : x ≤ y) : c.root x ≤ c.root y := by
  obtain rfl | h := h.eq_or_lt
  · exact le_rfl
  · exact (c.root_lt hx h).le

lemma Clip.norm_pos (c : Clip K) (x : K) : 0 < c.root x + c.eps :=
  add_pos_of_nonneg_of_pos (c.root_nonneg x) c.eps_pos

/-- Nothing is clipped. -/
lemma Clip.coef_one {c : Clip K} {x : K} (h : c.root x + c.eps ≤ c.threshold) : c.coef x = 1 := by
  rw [Clip.coef, min_eq_left]
  rwa [le_div_iff₀ (c.norm_pos x), one_mul]

lemma Clip.coef_clipped {c : Clip K} {x : K} (h : c.threshold < c.root x + c.eps) :
    c.coef x = c.threshold / (c.root x + c.eps) ∧ c.coef x < 1 := by
  have hlt : c.threshold / (c.root x + c.eps) < 1 := by
    rwa [div_lt_one (c.norm_pos x)]
  rw [Clip.coef, min_eq_right hlt.le]
  exact ⟨rfl, hlt⟩

/-- A smaller norm has the same scale when nothing is clipped or the threshold is 0. -/
lemma Clip.coef_eq_iff (c : Clip K) {x y : K} (hx : 0 ≤ x) (h : x ≤ y) :
    c.coef x = c.coef y ↔ c.threshold = 0 ∨ c.root y + c.eps ≤ c.threshold ∨ x = y := by
  constructor
  · intro he
    by_cases hy : c.root y + c.eps ≤ c.threshold
    · exact .inr (.inl hy)
    obtain ⟨ey, hy1⟩ := c.coef_clipped (not_le.mp hy)
    have hx' : c.threshold < c.root x + c.eps := by
      by_contra hx1
      rw [not_lt] at hx1
      rw [c.coef_one hx1] at he
      exact absurd he.symm hy1.ne
    rw [(c.coef_clipped hx').1, ey, div_eq_div_iff (c.norm_pos x).ne' (c.norm_pos y).ne'] at he
    obtain he | he := mul_eq_mul_left_iff.mp he
    · refine .inr (.inr (h.antisymm ?_))
      by_contra hlt
      have hroot := c.root_lt hx (not_le.mp hlt)
      linarith
    · exact .inl he
  · rintro (h0 | hy | rfl)
    · simp [Clip.coef, h0]
    · have hx1 := c.root_le hx h
      rw [c.coef_one hy, c.coef_one (by linarith)]
    · rfl

/-- A gradient of the whole that the clipping treats alike on all ranks: the threshold is 0 or not
reached, there is one rank, or the sharded factors have no gradient. -/
def ClipEven (c : Clip K) (G : Whole ads n → K) : Prop :=
  c.threshold = 0 ∨ c.root (∑ w, G w ^ 2) + c.eps ≤ c.threshold ∨ n = 0 ∨
    ∀ w, w.1.2.isSome = true → G w = 0

/-- All ranks apply the scale of the whole. -/
theorem scale_iff (c : Clip K) (G : Whole ads n → K) :
    (∀ r, c.coef (∑ e, G (glob r e) ^ 2) = c.coef (∑ w, G w ^ 2)) ↔ ClipEven c G := by
  have hiff (r : Fin (n + 1)) := c.coef_eq_iff
    (Finset.sum_nonneg fun e _ => sq_nonneg (G (glob r e))) (sum_le_whole r G)
  simp only [hiff, sum_eq_whole_iff]
  constructor
  · intro h
    by_cases h0 : c.threshold = 0
    · exact .inl h0
    by_cases hy : c.root (∑ w, G w ^ 2) + c.eps ≤ c.threshold
    · exact .inr (.inl hy)
    by_cases hn : n = 0
    · exact .inr (.inr (.inl hn))
    refine .inr (.inr (.inr fun w hw => ?_))
    obtain ⟨t, ht⟩ := Option.isSome_iff_exists.mp hw
    -- with several ranks some other rank does not hold the element
    obtain ⟨r, hr⟩ : ∃ r : Fin (n + 1), t ≠ r := by
      have : Nontrivial (Fin (n + 1)) := Fin.nontrivial_iff_two_le.mpr (by omega)
      obtain ⟨r, hr⟩ := exists_ne t
      exact ⟨r, hr.symm⟩
    exact (((h r).resolve_left h0).resolve_left hy) w t ht hr
  · rintro (h0 | hy | rfl | hs) r
    · exact .inl h0
    · exact .inr (.inl hy)
    · refine .inr (.inr fun w t _ ht => absurd ?_ ht)
      rw [Fin.eq_zero t, Fin.eq_zero r]
    · exact .inr (.inr fun w t hw _ => hs w (by rw [hw]; rfl))

end

/-! ## The step -/

section
variable [Field K]

/-- The ranks hold the slices of the reference; the gradients of the replicated factors are partial. -/
structure Slices (p : Pair ads n K σ) : Prop where
  params : ∀ r e, (p.ranks r).params e = p.ref.params (glob r e)
  opt : ∀ r e, (p.ranks r).opt e = p.ref.opt (glob r e)
  micro : ∀ r, (p.ranks r).micro = p.ref.micro
  noGrad : p.ref.grad = none → ∀ r, (p.ranks r).grad = none
  grad : ∀ G, p.ref.grad = some G → ∃ l, (∀ r, (p.ranks r).grad = some (l r)) ∧ Sliced l G

lemma Slices.init (θ : Whole ads n → K) (o : Elem ads → σ) : Slices (Pair.init θ o) where
  params _ _ := rfl
  opt _ _ := rfl
  micro _ := rfl
  noGrad _ _ := rfl
  grad G h := by cases h

lemma Sliced.add {l l' : Fin (n + 1) → Elem ads → K} {G G' : Whole ads n → K} (h : Sliced l G)
    (h' : Sliced l' G') : Sliced (fun r e => l r e + l' r e) fun w => G w + G' w where
  exact r e he := by rw [h.exact r e he, h'.exact r e he]
  summed e he := by rw [Finset.sum_add_distrib, h.summed e he, h'.summed e he]

/-- Both behind the backward pass. -/
def Pair.backward (bw : Backward ads n K B) (p : Pair ads n K σ) (b : B) : Pair ads n K σ where
  ranks := backwardAll p.ranks (bw.loc b fun r => (p.ranks r).params)
  ref := p.ref.backward (bw.whole b p.ref.params)

/-- The backward pass adds the gradients of the whole. -/
lemma Slices.backward {bw : Backward ads n K B} (hbw : bw.Documented) {p : Pair ads n K σ}
    (h : Slices p) (b : B) : Slices (p.backward bw b) := by
  have hparams : (fun r => (p.ranks r).params) = fun r e => p.ref.params (glob r e) := by
    funext r e
    exact h.params r e
  have hdoc := hbw b p.ref.params
  rw [Pair.backward, hparams]
  cases hg : bw.whole b p.ref.params with
  | none =>
    rw [hg] at hdoc
    rw [hdoc]
    exact ⟨h.params, h.opt, fun r => congrArg (· + 1) (h.micro r), h.noGrad, h.grad⟩
  | some g =>
    rw [hg] at hdoc
    obtain ⟨l, hl, hsl⟩ := hdoc
    rw [hl]
    refine ⟨h.params, h.opt, fun r => congrArg (· + 1) (h.micro r), fun hnone => ?_, fun G hG => ?_⟩
    · simp only [Trainer.backward] at hnone
      split at hnone <;> simp_all
    · cases hgrad : p.ref.grad with
      | none =>
        simp only [Trainer.backward, hgrad, Option.some.injEq] at hG
        subst hG
        refine ⟨l, fun r => ?_, hsl⟩
        simp [backwardAll, Trainer.backward, h.noGrad hgrad r]
      | some G0 =>
        simp only [Trainer.backward, hgrad, Option.some.injEq] at hG
        subst hG
        obtain ⟨l0, hl0, hsl0⟩ := h.grad G0 hgrad
        refine ⟨fun r e => l0 r e + l r e, fun r => ?_, hsl0.add hsl⟩
        simp [backwardAll, Trainer.backward, hl0 r]

/-- Behind the all-reduce every rank has the gradients of the whole. -/
lemma Slices.allreduce {p : Pair ads n K σ} (h : Slices p) (r : Fin (n + 1)) :
    (allreduce p.ranks r).grad = p.ref.grad.map fun G e => G (glob r e) := by
  cases hgrad : p.ref.grad with
  | none => simp [Lora.allreduce, h.noGrad hgrad r]
  | some G =>
    obtain ⟨l, hl, hsl⟩ := h.grad G hgrad
    simp only [Lora.allreduce, hl, Option.map_some, Option.some.injEq]
    funext e
    split
    case isTrue he =>
      rw [hsl.summed e he, glob_shared (sharded_of_reduced he) 0 r]
    case isFalse he => exact hsl.exact r e (Bool.not_eq_true _ |>.mp he)

end

section
variable [Field K] [LinearOrder K] [IsStrictOrderedRing K]

/-- The clipping of a step treats the ranks alike. -/
def ClipSafe (s : Setup ads K σ) (bw : Backward ads n K B) (p : Pair ads n K σ) (b : B) : Prop :=
  (p.backward bw b).ref.micro % s.accum = 0 → ∀ G, (p.backward bw b).ref.grad = some G →
    ClipEven s.clip G

/-- A step is the one of the whole: one scale on all ranks when it clips, and the ranks hold the slices
of the reference behind it. -/
structure Exact (s : Setup ads K σ) (bw : Backward ads n K B) (p : Pair ads n K σ) (b : B) : Prop where
  scale : (p.backward bw b).ref.micro % s.accum = 0 → ∀ r,
    (allreduce (p.backward bw b).ranks r).scale s.clip = (p.backward bw b).ref.scale s.clip
  params : ∀ p', p.step s bw b = some p' → ∀ r e, (p'.ranks r).params e = p'.ref.params (glob r e)

omit [IsStrictOrderedRing K] in
/-- The micro-steps from the state behind the backward pass. -/
lemma step_eq (s : Setup ads K σ) (bw : Backward ads n K B) (p : Pair ads n K σ) (b : B) :
    p.step s bw b = some (
      ⟨fun r => if ((p.backward bw b).ranks r).micro % s.accum = 0 then
          ((Lora.allreduce (p.backward bw b).ranks r).clip s.clip).optStep s.upd
        else (p.backward bw b).ranks r,
      if (p.backward bw b).ref.micro % s.accum = 0 then
          ((p.backward bw b).ref.clip s.clip).optStep fun w => s.upd w.1.1
        else (p.backward bw b).ref⟩) := rfl

omit [IsStrictOrderedRing K] in
/-- An optimizer step with one scale. -/
lemma Slices.optStep {s : Setup ads K σ} {p : Pair ads n K σ} (h : Slices p)
    (hscale : ∀ r, (Lora.allreduce p.ranks r).scale s.clip = p.ref.scale s.clip) :
    Slices (σ := σ) ⟨fun r => ((Lora.allreduce p.ranks r).clip s.clip).optStep s.upd,
      (p.ref.clip s.clip).optStep fun w => s.upd w.1.1⟩ := by
  have hgrad (r : Fin (n + 1)) : ((Lora.allreduce p.ranks r).clip s.clip).grad =
      (p.ref.clip s.clip).grad.map fun G e => G (glob r e) := by
    simp only [Trainer.clip, h.allreduce r, hscale r, Option.map_map]
    rfl
  refine ⟨fun r e => ?_, fun r e => ?_, fun r => h.micro r, fun _ _ => rfl, fun G hG => by cases hG⟩
  · simp only [Trainer.optStep, hgrad r]
    cases (p.ref.clip s.clip).grad with
    | none => exact h.params r e
    | some G =>
      dsimp only [Option.map_some, Trainer.clip, Lora.allreduce]
      rw [h.opt r e, h.params r e]
      rfl
  · simp only [Trainer.optStep, hgrad r]
    cases (p.ref.clip s.clip).grad with
    | none => exact h.opt r e
    | some G =>
      dsimp only [Option.map_some, Trainer.clip, Lora.allreduce]
      rw [h.opt r e, h.params r e]
      rfl

/-- The scales of the ranks are that of the reference when the clipping treats them alike. -/
lemma Slices.scale_iff {s : Setup ads K σ} {p : Pair ads n K σ} (h : Slices p) :
    (∀ r, (Lora.allreduce p.ranks r).scale s.clip = p.ref.scale s.clip) ↔
      ∀ G, p.ref.grad = some G → ClipEven s.clip G := by
  cases hgrad : p.ref.grad with
  | none => simp [Trainer.scale, h.allreduce, hgrad]
  | some G =>
    simp only [Trainer.scale, h.allreduce, hgrad, Option.map_some, Option.some.injEq, forall_eq']
    exact Lora.scale_iff s.clip G

lemma step_iff {s : Setup ads K σ} {bw : Backward ads n K B} (hbw : bw.Documented)
    {p : Pair ads n K σ} (h : Slices p) (b : B) :
    (ClipSafe s bw p b ↔ Exact s bw p b) ∧
      (ClipSafe s bw p b → ∀ p', p.step s bw b = some p' → Slices p') := by
  have hb := h.backward hbw b
  have hnext : ClipSafe s bw p b → ∀ p', p.step s bw b = some p' → Slices p' := by
    intro hsafe p' hp'
    rw [step_eq] at hp'
    cases hp'
    by_cases hacc : (p.backward bw b).ref.micro % s.accum = 0
    · have hranks (r : Fin (n + 1)) : ((p.backward bw b).ranks r).micro % s.accum = 0 := by
        rw [hb.micro r, hacc]
      simp only [if_pos hacc, if_pos (hranks _)]
      exact hb.optStep (hb.scale_iff.mpr (hsafe hacc))
    · have hranks (r : Fin (n + 1)) : ¬ ((p.backward bw b).ranks r).micro % s.accum = 0 := by
        rwa [hb.micro r]
      simp only [if_neg hacc, if_neg (hranks _)]
      exact hb
  refine ⟨⟨fun hsafe => ⟨fun hacc => ?_, fun p' hp' => (hnext hsafe p' hp').params⟩, ?_⟩, hnext⟩
  · exact hb.scale_iff.mpr (hsafe hacc)
  · exact fun hex hacc => hb.scale_iff.mp (hex.scale hacc)

/-- The ranks train as one rank with the whole adapters does exactly when the clipping of every
optimizer step treats them alike. -/
theorem sharded_iff (s : Setup ads K σ) (bw : Backward ads n K B) (hbw : bw.Documented)
    (θ : Whole ads n → K) (o : Elem ads → σ) (bs : List B) :
    Along (Pair.step s bw) (Exact s bw) (.init θ o) bs ↔
      Along (Pair.step s bw) (ClipSafe s bw) (.init θ o) bs :=
  (Along.iff_of_inv (fun _ b h => step_iff hbw h b) (Slices.init θ o) bs).symm

end

/-! ## Two ranks with one column adapter -/

/-- A column adapter of one element of A and one element of B a rank. -/
def toyAds : Fin 1 → Adapter := fun _ => { kind := .col, size := fun _ => 1 }

/-- The gradient of A is 4, that of B is 3 on rank 0 and 0 on rank 1. -/
noncomputable def toyGrad : Backward toyAds 1 ℝ Unit where
  loc _ _ := some fun r e => if r.val = 0 then (if e.reduced then 4 else 3) else 0
  whole _ _ := some fun w => match w.1.2 with
    | none => 4
    | some t => if t.val = 0 then 3 else 0

lemma toyGrad_documented : toyGrad.Documented := by
  have hcases (e : Elem toyAds) : e.sharded = !e.reduced := rfl
  intro b θ
  refine ⟨_, rfl, ⟨fun r e he => ?_, fun e he => ?_⟩⟩
  · have hs : e.sharded = true := by rw [hcases, he]; rfl
    simp [glob, hs, he]
  · have hs : e.sharded = false := by rw [hcases, he]; rfl
    simp [glob, hs, he]

/-- Clipping at a threshold with the square root of the reals. -/
noncomputable def realClip (threshold : ℝ) : Clip ℝ where
  threshold := threshold
  root := Real.sqrt
  eps := 1 / 10 ^ 6
  root_nonneg := Real.sqrt_nonneg
  root_mul _ h := Real.mul_self_sqrt h
  eps_pos := by positivity

/-- Gradient descent with one micro-step an optimizer step. -/
noncomputable def toySetup (threshold : ℝ) : Setup toyAds ℝ Unit where
  accum := 1
  clip := realClip threshold
  upd _ o p g := (p - g, o)

theorem sharded_iff_toy :
    Along (Pair.step (toySetup 0) toyGrad) (Exact (toySetup 0) toyGrad) (.init 0 fun _ => ()) [(), ()] ↔
      Along (Pair.step (toySetup 0) toyGrad) (ClipSafe (toySetup 0) toyGrad) (.init 0 fun _ => ())
        [(), ()] :=
  sharded_iff (toySetup 0) toyGrad toyGrad_documented 0 (fun _ => ()) [(), ()]

/-- The elements of a rank. -/
def toyElem (f : Factor) : Elem toyAds := ⟨0, f, (0 : Fin 1)⟩

/-- The gradient of the whole. -/
noncomputable def toyWhole (w : Whole toyAds 1) : ℝ :=
  match w.1.2 with
  | none => 4
  | some t => if t.val = 0 then 3 else 0

lemma toyWhole_A (r : Fin 2) : toyWhole (glob r (toyElem .A)) = 4 := rfl

lemma toyWhole_B (r : Fin 2) : toyWhole (glob r (toyElem .B)) = if r.val = 0 then 3 else 0 := rfl

lemma toy_squares (r : Fin 2) :
    ∑ e, toyWhole (glob r e) ^ 2 = 16 + if r.val = 0 then (9 : ℝ) else 0 := by
  have hfac (f : Factor → ℝ) : ∑ x, f x = f .A + f .B := by
    rw [show (Finset.univ : Finset Factor) = {.A, .B} from rfl]
    exact Finset.sum_pair (by decide)
  rw [Fintype.sum_sigma, Fin.sum_univ_one, Fintype.sum_sigma, hfac]
  have hone (f : Fin 1 → ℝ) : ∑ i, f i = f 0 := Fin.sum_univ_one f
  have hA : ∑ i : Fin 1, toyWhole (glob r ⟨0, .A, i⟩) ^ 2 = 16 := by
    rw [hone]
    have h := toyWhole_A r
    rw [toyElem] at h
    rw [h]
    norm_num
  have hB : ∑ i : Fin 1, toyWhole (glob r ⟨0, .B, i⟩) ^ 2 = if r.val = 0 then 9 else 0 := by
    rw [hone]
    have h := toyWhole_B r
    rw [toyElem] at h
    rw [h]
    split <;> norm_num
  exact congrArg₂ (· + ·) hA hB

/-- What the optimizer step leaves of the replicated factor on a rank. -/
lemma toy_step (threshold : ℝ) (p : Pair toyAds 1 ℝ Unit)
    (hp : Pair.step (toySetup threshold) toyGrad (.init 0 fun _ => ()) () = some p) (r : Fin 2) :
    (p.ranks r).params (toyElem .A) =
      0 - 4 * (realClip threshold).coef (16 + if r.val = 0 then (9 : ℝ) else 0) := by
  have hslices := (Slices.init (0 : Whole toyAds 1 → ℝ) fun _ => ()).backward
    toyGrad_documented ()
  have hgrad := hslices.allreduce r
  rw [show ((Pair.init (K := ℝ) 0 fun _ => ()).backward toyGrad ()).ref.grad = some toyWhole from rfl,
    Option.map_some] at hgrad
  rw [step_eq] at hp
  cases hp
  dsimp only
  have hacc : ((Pair.backward (K := ℝ) toyGrad (Pair.init 0 fun _ => ()) ()).ranks r).micro %
      (toySetup threshold).accum = 0 := Nat.mod_one _
  rw [if_pos hacc]
  simp only [Trainer.optStep, Trainer.clip, Trainer.scale, hgrad, Option.map_some]
  rw [toy_squares r, toyWhole_A r]
  rfl

/-- With the threshold 1 the two ranks end with different values of the replicated factor. -/
theorem replicas_diverge : toyGrad.Documented ∧
    ∃ p, Pair.step (toySetup 1) toyGrad (.init 0 fun _ => ()) () = some p ∧
      (p.ranks 0).params (toyElem .A) ≠ (p.ranks 1).params (toyElem .A) := by
  refine ⟨toyGrad_documented, _, rfl, fun h => ?_⟩
  rw [toy_step 1 _ rfl 0, toy_step 1 _ rfl 1] at h
  have hcoef : (realClip 1).coef (16 : ℝ) = (realClip 1).coef 25 := by
    norm_num at h
    linarith
  obtain h0 | hle | h16 := ((realClip 1).coef_eq_iff (by norm_num) (by norm_num)).mp hcoef
  · exact one_ne_zero h0
  · have hroot : Real.sqrt 25 = 5 := by
      rw [show (25 : ℝ) = 5 ^ 2 by norm_num]
      exact Real.sqrt_sq (by norm_num)
    have hle' : Real.sqrt 25 + 1 / 10 ^ 6 ≤ 1 := hle
    rw [hroot] at hle'
    norm_num at hle'
  · norm_num at h16

end SuffixHybrid.Lora
