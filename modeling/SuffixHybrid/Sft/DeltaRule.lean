import Mathlib.Analysis.Complex.Exponential
import Mathlib.Analysis.Real.Sqrt
import Mathlib.LinearAlgebra.Pi
import Mathlib.Tactic.Ring
import SuffixHybrid.Lib.Grid
import SuffixHybrid.Lib.Triangular

/-!
# The chunked gated delta rule

Training runs the delta rule in chunks: two triangular solves give the updates of all rows of a chunk at once,
from the state at its start. The updates are those of the recurrence over the tokens (`Head.vn_eq`), because both
solve the same system, so each chunk ends in the state of the recurrence and returns its outputs. The sum of the
gates starts anew in each chunk, and a row needs only the rows before it: neither the chunk size nor the padding
nor the groups of heads change a row (`deltaRule_eq`).
-/

namespace SuffixHybrid.Sft

open Lib

section Rule
variable {R : Type} [Field R] (exp rsqrt : R → R)

/-! ## The recurrence -/

/-- The inputs of a head, row by row. The widths of the rows are parameters of what reads them. -/
structure Head (R : Type) where
  q : ℕ → ℕ → R
  k : ℕ → ℕ → R
  v : ℕ → ℕ → R
  g : ℕ → R
  beta : ℕ → R

namespace Head

/-- The update of a row, for the state before it. -/
def delta (dk : ℕ) (x : Head R) (s : ℕ → ℕ → R) (t d : ℕ) : R :=
  x.beta t * (x.v t d - ∑ e ∈ Finset.range dk, x.k t e * (exp (x.g t) * s e d))

/-- The state after `n` rows, from a first one. -/
def state (dk : ℕ) (x : Head R) (s : ℕ → ℕ → R) : ℕ → ℕ → ℕ → R
  | 0 => s
  | t + 1 => fun e d => exp (x.g t) * state dk x s t e d + x.k t e * delta exp dk x (state dk x s t) t d

/-- What the recurrence returns for a row. -/
def output (dk : ℕ) (x : Head R) (s : ℕ → ℕ → R) (t d : ℕ) : R :=
  ∑ e ∈ Finset.range dk, x.q t e * state exp dk x s (t + 1) e d

/-! ## Chunks -/

/-- `_l2norm`. -/
def l2norm (d : ℕ) (x : ℕ → R) (e : ℕ) : R :=
  x e * rsqrt (∑ i ∈ Finset.range d, x i * x i + 1 / ((10 ^ 6 : ℕ) : R))

/-- Normalised queries and keys. -/
def normed (dk : ℕ) (x : Head R) : Head R where
  q t e := l2norm rsqrt dk (x.q t) e * rsqrt (dk : R)
  k t := l2norm rsqrt dk (x.k t)
  v := x.v
  g := x.g
  beta := x.beta

/-- `F.pad`: zeros from row `t` on. -/
def padded (t : ℕ) (x : Head R) : Head R where
  q i e := if i < t then x.q i e else 0
  k i e := if i < t then x.k i e else 0
  v i e := if i < t then x.v i e else 0
  g i := if i < t then x.g i else 0
  beta i := if i < t then x.beta i else 0

/-- The rows from `p` on. -/
def rowsFrom (p : ℕ) (x : Head R) : Head R where
  q r := x.q (p + r)
  k r := x.k (p + r)
  v r := x.v (p + r)
  g r := x.g (p + r)
  beta r := x.beta (p + r)

variable (c dk : ℕ) (x : Head R) (s : ℕ → ℕ → R)

/-- The sum of the gates up to a row of the chunk. -/
def cumsum (r : ℕ) : R := ∑ i ∈ Finset.range (r + 1), x.g i

/-- The decay from a row to a later one, and 0 to an earlier one, where the exponent is masked with `-inf`. -/
def decay (r i : ℕ) : R := if r < i then 0 else exp (x.cumsum r - x.cumsum i)

/-- The matrix of the triangular solves. -/
def ut (r i : ℕ) : R := (∑ e ∈ Finset.range dk, x.k r e * x.beta r * x.k i e) * decay exp x r i

/-- The attention in the chunk. -/
def attn (r i : ℕ) : R := (∑ e ∈ Finset.range dk, x.q r e * x.k i e) * decay exp x r i

/-- The updates for a zero state. -/
def u : ℕ → ℕ → R := solve (ut exp dk x) fun r d => x.v r d * x.beta r

/-- What the state takes off the updates. -/
def w : ℕ → ℕ → R := solve (ut exp dk x) fun r e => x.k r e * x.beta r * exp (x.cumsum r)

/-- The updates. -/
def vn (r d : ℕ) : R := u exp dk x r d - ∑ e ∈ Finset.range dk, w exp dk x r e * s e d

/-- What a chunk of `c` rows returns. -/
def chunkOut (r d : ℕ) : R :=
  ∑ e ∈ Finset.range dk, x.q r e * exp (x.cumsum r) * s e d +
    ∑ i ∈ Finset.range c, attn exp dk x r i * vn exp dk x s i d

/-- The state after a chunk of `c` rows. -/
def chunkNext (e d : ℕ) : R :=
  s e d * exp (x.cumsum (c - 1)) +
    ∑ i ∈ Finset.range c, x.k i e * exp (x.cumsum (c - 1) - x.cumsum i) * vn exp dk x s i d

/-- The loop over `n` chunks: the state, and what the chunks return. -/
def chunks (n : ℕ) : (ℕ → ℕ → R) × List (ℕ → ℕ → R) :=
  (List.range n).foldl (fun p i =>
    (chunkNext exp c dk (x.rowsFrom (i * c)) p.1, p.2 ++ [chunkOut exp c dk (x.rowsFrom (i * c)) p.1])) (fun _ _ => 0, [])

/-- The stacked rows of `n` chunks. -/
def stacked (n p : ℕ) : ℕ → R := ((chunks exp c dk x n).2.getD (p / c) fun _ _ => 0) (p % c)

/-! ## A chunk -/

section Exp
variable {exp} (h0 : exp 0 = 1) (hadd : ∀ a b, exp (a + b) = exp a * exp b)
include h0 hadd

lemma state_eq (n e d : ℕ) :
    state exp dk x s n e d = exp (∑ i ∈ Finset.range n, x.g i) * s e d + ∑ i ∈ Finset.range n,
      exp (∑ j ∈ Finset.range n, x.g j - x.cumsum i) * (x.k i e * delta exp dk x (state exp dk x s i) i d) :=
  decayed_eq h0 hadd (s := fun n => state exp dk x s n e d) (fun _ => rfl) n

/-- The decayed state before a row, in terms of the sums of the gates. -/
lemma decayed_state_eq (r e d : ℕ) :
    exp (x.g r) * state exp dk x s r e d = exp (x.cumsum r) * s e d + ∑ i ∈ Finset.range r,
      exp (x.cumsum r - x.cumsum i) * (x.k i e * delta exp dk x (state exp dk x s i) i d) := by
  have hsum : x.cumsum r = x.g r + ∑ i ∈ Finset.range r, x.g i := by
    rw [cumsum, Finset.sum_range_succ, add_comm]
  rw [state_eq dk x s h0 hadd, mul_add, ← mul_assoc, ← hadd, ← hsum, Finset.mul_sum]
  congr 1
  refine Finset.sum_congr rfl fun i _ => ?_
  rw [← mul_assoc, ← hadd, hsum, add_sub_assoc]

/-- The updates of the recurrence solve the system of the chunk. -/
theorem vn_eq (r d : ℕ) : vn exp dk x s r d = delta exp dk x (state exp dk x s r) r d := by
  have hu : u exp dk x r d = solve (ut exp dk x) (fun r => x.v r d * x.beta r) r :=
    solve_map (b := fun r d => x.v r d * x.beta r) (LinearMap.proj d : (ℕ → R) →ₗ[R] R) r
  have hw : ∑ e ∈ Finset.range dk, w exp dk x r e * s e d =
      solve (ut exp dk x) (fun r => ∑ e ∈ Finset.range dk, x.k r e * x.beta r * exp (x.cumsum r) * s e d) r := by
    have h := solve_map (a := ut exp dk x) (b := fun r e => x.k r e * x.beta r * exp (x.cumsum r))
      (∑ e ∈ Finset.range dk, s e d • LinearMap.proj e : (ℕ → R) →ₗ[R] R) r
    simp only [LinearMap.sum_apply, LinearMap.smul_apply, LinearMap.proj_apply, smul_eq_mul, mul_comm (s _ d)] at h
    exact h
  rw [vn, hu, hw, solve_sub]
  symm
  refine solve_unique (x := fun r => delta exp dk x (state exp dk x s r) r d) (fun r => ?_) r
  have hold : ∑ e ∈ Finset.range dk, x.k r e * (exp (x.g r) * state exp dk x s r e d) =
      ∑ e ∈ Finset.range dk, x.k r e * exp (x.cumsum r) * s e d + ∑ i ∈ Finset.range r,
        (∑ e ∈ Finset.range dk, x.k r e * x.k i e) * exp (x.cumsum r - x.cumsum i) *
          delta exp dk x (state exp dk x s i) i d := by
    simp only [Finset.sum_mul]
    rw [Finset.sum_comm, ← Finset.sum_add_distrib]
    refine Finset.sum_congr rfl fun e _ => ?_
    rw [decayed_state_eq dk x s h0 hadd, mul_add, Finset.mul_sum]
    congr 1
    · ring
    · exact Finset.sum_congr rfl fun i _ => by ring
  rw [delta, hold, mul_sub, mul_add, Finset.mul_sum, Finset.mul_sum, sub_add_eq_sub_sub, mul_comm (x.beta r)]
  congr 1
  · congr 1
    exact Finset.sum_congr rfl fun e _ => by ring
  · refine Finset.sum_congr rfl fun i hi => ?_
    have hi : i < r := Finset.mem_range.mp hi
    rw [ut, decay, if_neg (by omega), smul_eq_mul, Finset.sum_mul, Finset.sum_mul, Finset.sum_mul, Finset.mul_sum,
      Finset.sum_mul]
    exact Finset.sum_congr rfl fun e _ => by ring

/-- A chunk ends in the state of the recurrence. -/
theorem chunkNext_eq (hc : 0 < c) : chunkNext exp c dk x s = state exp dk x s c := by
  funext e d
  have hsum : x.cumsum (c - 1) = ∑ i ∈ Finset.range c, x.g i := by
    rw [cumsum, Nat.sub_add_cancel hc]
  rw [chunkNext, state_eq dk x s h0 hadd, hsum, mul_comm (s e d)]
  congr 1
  refine Finset.sum_congr rfl fun i _ => ?_
  rw [vn_eq dk x s h0 hadd]
  ring

/-- A chunk returns the rows of the recurrence. -/
theorem chunkOut_eq {r : ℕ} (hr : r < c) (d : ℕ) : chunkOut exp c dk x s r d = output exp dk x s r d := by
  have hattn : ∑ i ∈ Finset.range c, attn exp dk x r i * vn exp dk x s i d =
      ∑ i ∈ Finset.range (r + 1), (∑ e ∈ Finset.range dk, x.q r e * x.k i e) * exp (x.cumsum r - x.cumsum i) *
        delta exp dk x (state exp dk x s i) i d := by
    symm
    refine Finset.sum_subset_zero_on_sdiff (fun i hi => ?_) (fun i hi => ?_) fun i hi => ?_
    · rw [Finset.mem_range] at hi ⊢
      omega
    · rw [Finset.mem_sdiff, Finset.mem_range, Finset.mem_range] at hi
      rw [attn, decay, if_pos (by omega), mul_zero, zero_mul]
    · rw [Finset.mem_range] at hi
      rw [attn, decay, if_neg (by omega), vn_eq dk x s h0 hadd]
  rw [chunkOut, hattn, output]
  simp only [state_eq dk x s h0 hadd (r + 1), ← cumsum.eq_def, mul_add, Finset.sum_add_distrib, Finset.mul_sum,
    Finset.sum_mul]
  rw [Finset.sum_comm]
  congr 1
  · exact Finset.sum_congr rfl fun e _ => by ring
  · exact Finset.sum_congr rfl fun e _ => Finset.sum_congr rfl fun i _ => by ring

end Exp

/-! ## The loop -/

lemma state_rowsFrom (p n : ℕ) :
    state exp dk (x.rowsFrom p) (state exp dk x s p) n = state exp dk x s (p + n) := by
  induction n with
  | zero => rfl
  | succ n ih =>
    funext e d
    rw [state, ih]
    rfl

/-- The state before a row is made of the rows before it. -/
lemma state_congr {y : Head R} {n : ℕ} (hk : ∀ i < n, x.k i = y.k i) (hv : ∀ i < n, x.v i = y.v i)
    (hg : ∀ i < n, x.g i = y.g i) (hbeta : ∀ i < n, x.beta i = y.beta i) :
    state exp dk x s n = state exp dk y s n := by
  induction n with
  | zero => rfl
  | succ n ih =>
    have ih := ih (fun i hi => hk i (Nat.lt_succ_of_lt hi)) (fun i hi => hv i (Nat.lt_succ_of_lt hi))
      (fun i hi => hg i (Nat.lt_succ_of_lt hi)) fun i hi => hbeta i (Nat.lt_succ_of_lt hi)
    funext e d
    simp only [state, delta, ih, hk n n.lt_succ_self, hv n n.lt_succ_self, hg n n.lt_succ_self,
      hbeta n n.lt_succ_self]

lemma output_padded {t p : ℕ} (hp : p < t) (d : ℕ) :
    output exp dk (x.padded t) s p d = output exp dk x s p d := by
  have hstate : state exp dk (x.padded t) s (p + 1) = state exp dk x s (p + 1) := by
    refine state_congr exp dk _ s (fun i hi => ?_) (fun i hi => ?_) (fun i hi => ?_) fun i hi => ?_
    · exact funext fun e => if_pos (by omega)
    · exact funext fun e => if_pos (by omega)
    · exact if_pos (by omega)
    · exact if_pos (by omega)
  rw [output, output, hstate]
  exact Finset.sum_congr rfl fun e _ => congrArg (· * _) (if_pos hp)

section Exp
variable {exp} (h0 : exp 0 = 1) (hadd : ∀ a b, exp (a + b) = exp a * exp b)
include h0 hadd

/-- The loop is at the state of the recurrence, and has returned the chunks before it. -/
lemma chunks_eq (hc : 0 < c) (n : ℕ) :
    chunks exp c dk x n = (state exp dk x (fun _ _ => 0) (n * c), (List.range n).map fun i =>
      chunkOut exp c dk (x.rowsFrom (i * c)) (state exp dk x (fun _ _ => 0) (i * c))) := by
  induction n with
  | zero =>
    rw [Nat.zero_mul]
    rfl
  | succ n ih =>
    have hstep : chunks exp c dk x (n + 1) = (chunkNext exp c dk (x.rowsFrom (n * c)) (chunks exp c dk x n).1,
        (chunks exp c dk x n).2 ++ [chunkOut exp c dk (x.rowsFrom (n * c)) (chunks exp c dk x n).1]) := by
      rw [chunks, List.range_succ, List.foldl_append]
      rfl
    rw [hstep, ih, chunkNext_eq c dk _ _ h0 hadd hc, state_rowsFrom, Nat.succ_mul, List.range_succ, List.map_append]
    rfl

/-- The rows of the chunks are those of the recurrence. -/
theorem stacked_eq (hc : 0 < c) {n p : ℕ} (hp : p < n * c) (d : ℕ) :
    stacked exp c dk x n p d = output exp dk x (fun _ _ => 0) p d := by
  have hchunk : p / c < n := (Nat.div_lt_iff_lt_mul hc).mpr hp
  have hget : (chunks exp c dk x n).2.getD (p / c) (fun _ _ => 0) =
      chunkOut exp c dk (x.rowsFrom (p / c * c)) (state exp dk x (fun _ _ => 0) (p / c * c)) := by
    rw [chunks_eq c dk x h0 hadd hc, List.getD_eq_getElem?_getD, List.getElem?_map, List.getElem?_range hchunk]
    rfl
  have hpos : p / c * c + p % c = p := Nat.div_add_mod' p c
  have hq : (x.rowsFrom (p / c * c)).q (p % c) = x.q (p / c * c + p % c) := rfl
  rw [stacked, hget, chunkOut_eq c dk _ _ h0 hadd (Nat.mod_lt p hc), output, output, state_rowsFrom, hq,
    ← Nat.add_assoc, hpos]

end Exp

end Head

/-! ## Tensors -/

/-- The tensors, by batch, token and head. -/
structure Inputs (R : Type) where
  q : ℕ → ℕ → ℕ → ℕ → R
  k : ℕ → ℕ → ℕ → ℕ → R
  v : ℕ → ℕ → ℕ → ℕ → R
  g : ℕ → ℕ → ℕ → R
  beta : ℕ → ℕ → ℕ → R

namespace Inputs

/-- `transpose(1, 2)`, at one batch entry and head. -/
def head (x : Inputs R) (b h : ℕ) : Head R where
  q t := x.q b t h
  k t := x.k b t h
  v t := x.v b t h
  g t := x.g b t h
  beta t := x.beta b t h

/-- The heads from `h0` on. -/
def headsFrom (x : Inputs R) (h0 : ℕ) : Inputs R where
  q b t h := x.q b t (h0 + h)
  k b t h := x.k b t (h0 + h)
  v b t h := x.v b t (h0 + h)
  g b t h := x.g b t (h0 + h)
  beta b t h := x.beta b t (h0 + h)

end Inputs

/-- `chunk_gated_delta_rule`, for `t` tokens and keys of width `dk`. No chunk to stack is an error, as is a chunk
of no rows. -/
def chunkGatedDeltaRule (chunk t dk : ℕ) (x : Inputs R) : Option (ℕ → ℕ → ℕ → ℕ → R) :=
  let n := (t + (-(t : ℤ) % chunk).toNat) / chunk
  if n = 0 then none
  else some fun b p h => (((x.head b h).normed rsqrt dk).padded t).stacked exp chunk dk n p

/-- `_heads_per_group`, for the setting `GDN_HEAD_GROUP` and the bytes of a group. -/
def headsPerGroup (group : Option ℕ) (bytes t h : ℕ) : ℕ :=
  if group.getD 0 = 0 then max 1 (min h (bytes / max 1 (t * 8192))) else group.getD 0

/-- `torch.cat` along the heads, of parts with their numbers of heads. -/
def catHeads : List (ℕ × (ℕ → ℕ → ℕ → R)) → ℕ → ℕ → ℕ → R
  | [], _, _, _ => 0
  | part :: parts, t, h, d => if h < part.1 then part.2 t h d else catHeads parts t (h - part.1) d

/-- `_rule_grouped` without the serving kernel: `heads` of the `hn` heads at a time, if gradients are enabled. -/
def ruleGrouped (grad : Bool) (group : Option ℕ) (bytes t hn dk : ℕ) (x : Inputs R) : Option (ℕ → ℕ → ℕ → R) :=
  let heads := headsPerGroup group bytes t hn
  if !grad ∨ hn ≤ heads then (chunkGatedDeltaRule exp rsqrt 64 t dk x).map fun o => o 0
  else do
    let outs ← (steps 0 hn heads).mapM fun h0 => do
      let o ← chunkGatedDeltaRule exp rsqrt 64 t dk (x.headsFrom h0)
      some (min heads (hn - h0), o 0)
    some (catHeads outs)

/-- What the recurrence returns for a token, from normalised queries and keys. -/
def recurrence (dk : ℕ) (x : Inputs R) (b t h d : ℕ) : R :=
  ((x.head b h).normed rsqrt dk).output exp dk (fun _ _ => 0) t d

variable {exp}

lemma headsPerGroup_pos (group : Option ℕ) (bytes t h : ℕ) : 0 < headsPerGroup group bytes t h := by
  unfold headsPerGroup
  split_ifs with hg
  · omega
  · omega

/-- Groups of equal size, but for the last one, are put together again. -/
lemma catHeads_steps {heads : ℕ} (hn : ℕ) {t : ℕ} (hpos : 0 < heads) (out : ℕ → ℕ → ℕ → ℕ → R) {f : ℕ → ℕ → R}
    (hout : ∀ h0 h d, out h0 t h d = f (h0 + h) d) (d : ℕ) :
    ∀ n h0 h, hn ≤ h0 + n → h0 + h < hn →
      catHeads ((steps h0 hn heads).map fun h0 => (min heads (hn - h0), out h0)) t h d = f (h0 + h) d := by
  intro n
  induction n using Nat.strongRecOn with
  | ind n ih =>
    intro h0 h hn' hlt
    rw [steps_cons hpos (by omega), List.map_cons, catHeads]
    split_ifs with hin
    · exact hout h0 h d
    · have hfull : min heads (hn - h0) = heads := by
        simp only at hin
        omega
      rw [hfull] at hin ⊢
      rw [ih (n - heads) (by omega) (h0 + heads) (h - heads) (by omega) (by omega)]
      congr 1
      omega

section Exp
variable (h0 : exp 0 = 1) (hadd : ∀ a b, exp (a + b) = exp a * exp b)
include h0 hadd

theorem chunkGatedDeltaRule_eq {chunk t : ℕ} (hchunk : 0 < chunk) (ht : 0 < t) (dk : ℕ) (x : Inputs R) :
    ∃ o, chunkGatedDeltaRule exp rsqrt chunk t dk x = some o ∧
      ∀ b, ∀ p < t, ∀ h d, o b p h d = recurrence exp rsqrt dk x b p h d := by
  obtain ⟨n, hn⟩ : chunk ∣ t + (-(t : ℤ) % chunk).toNat := by
    have hmod := Int.emod_nonneg (-(t : ℤ)) (b := chunk) (by omega)
    zify
    rw [Int.toNat_of_nonneg hmod]
    exact Int.dvd_of_emod_eq_zero (by simp)
  have hdiv : (t + (-(t : ℤ) % chunk).toNat) / chunk = n := by
    rw [hn, Nat.mul_div_cancel_left n hchunk]
  have hpos : n ≠ 0 := by
    rintro rfl
    omega
  refine ⟨_, (if_neg (by rwa [hdiv])), fun b p hp h d => ?_⟩
  rw [Head.stacked_eq chunk dk _ h0 hadd hchunk, Head.output_padded exp dk _ _ hp, recurrence]
  rw [hdiv, Nat.mul_comm, ← hn]
  omega

theorem ruleGrouped_eq (grad : Bool) (group : Option ℕ) (bytes : ℕ) {t : ℕ} (ht : 0 < t) (hn dk : ℕ) (x : Inputs R) :
    ∃ o, ruleGrouped exp rsqrt grad group bytes t hn dk x = some o ∧
      ∀ p < t, ∀ h < hn, ∀ d, o p h d = recurrence exp rsqrt dk x 0 p h d := by
  have hrule := fun x => chunkGatedDeltaRule_eq rsqrt h0 hadd (by omega : 0 < 64) ht dk x
  unfold ruleGrouped
  simp only
  split_ifs
  · obtain ⟨o, ho, heq⟩ := hrule x
    rw [ho]
    exact ⟨o 0, rfl, fun p hp h _ d => heq 0 p hp h d⟩
  · choose o ho heq using fun h0 => hrule (x.headsFrom h0)
    have hmap : ((steps 0 hn (headsPerGroup group bytes t hn)).mapM fun h0 => do
        let o ← chunkGatedDeltaRule exp rsqrt 64 t dk (x.headsFrom h0)
        some (min (headsPerGroup group bytes t hn) (hn - h0), o 0)) =
          some ((steps 0 hn (headsPerGroup group bytes t hn)).map fun h0 =>
            (min (headsPerGroup group bytes t hn) (hn - h0), o h0 0)) := by
      simp only [ho]
      exact List.mapM_pure
    rw [hmap]
    refine ⟨_, rfl, fun p hp h hlt d => ?_⟩
    have hcat := catHeads_steps hn (headsPerGroup_pos group bytes t hn) (fun h0 => o h0 0)
      (f := fun h d => recurrence exp rsqrt dk x 0 p h d) (fun h0 h d => heq h0 0 p hp h d) d hn 0 h (by omega) (by omega)
    rwa [Nat.zero_add] at hcat

end Exp

end Rule

/-! ## Over the reals -/

/-- The chunked rule returns the rows of the recurrence for every size of the chunks, and the grouped rule for every
grouping of the heads. -/
theorem deltaRule_eq (rsqrt : ℝ → ℝ) {t : ℕ} (ht : 1 ≤ t) (dk : ℕ) (x : Inputs ℝ) :
    (∀ chunk, 1 ≤ chunk → ∃ o, chunkGatedDeltaRule Real.exp rsqrt chunk t dk x = some o ∧
      ∀ b, ∀ p < t, ∀ h d, o b p h d = recurrence Real.exp rsqrt dk x b p h d) ∧
    ∀ grad group bytes hn, ∃ o, ruleGrouped Real.exp rsqrt grad group bytes t hn dk x = some o ∧
      ∀ p < t, ∀ h < hn, ∀ d, o p h d = recurrence Real.exp rsqrt dk x 0 p h d := by
  constructor
  · intro chunk hchunk
    exact chunkGatedDeltaRule_eq rsqrt Real.exp_zero Real.exp_add hchunk ht dk x
  · intro grad group bytes hn
    exact ruleGrouped_eq rsqrt Real.exp_zero Real.exp_add grad group bytes ht hn dk x

/-- Three tokens of ones, in chunks of two. -/
theorem deltaRule_eq_ones :
    ∃ o, chunkGatedDeltaRule Real.exp (fun a => (√a)⁻¹) 2 3 1 ⟨1, 1, 1, 1, 1⟩ = some o ∧
      ∀ b, ∀ p < 3, ∀ h d, o b p h d = recurrence Real.exp (fun a => (√a)⁻¹) 1 ⟨1, 1, 1, 1, 1⟩ b p h d :=
  (deltaRule_eq (fun a => (√a)⁻¹) (by norm_num) 1 ⟨1, 1, 1, 1, 1⟩).1 2 (by norm_num)

end SuffixHybrid.Sft
