import Mathlib.Algebra.BigOperators.Group.Finset.Basic
import Mathlib.Algebra.Order.Field.Basic
import Mathlib.Data.Fintype.Option
import Mathlib.Data.Fintype.Sigma
import Mathlib.Data.Fintype.Prod
import Mathlib.Data.Fintype.Sets
import Mathlib.Data.PNat.Basic
import Mathlib.Tactic.Common

/-!
# Training sharded adapters

Each rank holds its part of every adapter: a column adapter has its A on every rank and B split, a row
adapter A split and B on every rank, a replicated one both on every rank. `microStep` is
`Trainer.micro_step` on all ranks: the backward pass adds to the gradients, and every `accum` of them
the gradients of the replicated factors of sharded adapters are summed over the ranks, each rank clips
its own gradients by their norm, and the optimizer steps element by element. `microStepWhole` is the
same on one rank that holds the whole adapters. The elements of a factor are flat.
-/

namespace SuffixHybrid.Lora

/-! ## Adapters -/

/-- `tp_kind`. -/
inductive Kind where
  | col
  | row
  | rep
deriving DecidableEq

/-- The factors of an adapter. -/
inductive Factor where
  | A
  | B
deriving DecidableEq

lemma Factor.mem_all (f : Factor) : f ∈ [Factor.A, Factor.B] := by
  cases f <;> simp

instance : Fintype Factor := Fintype.ofList [.A, .B] Factor.mem_all

/-- `replicated_factor`: the factor of a sharded adapter that every rank holds. -/
def Kind.replicatedFactor : Kind → Option Factor
  | .col => some .A
  | .row => some .B
  | .rep => none

/-- An adapter with the number of elements that a rank holds of each factor. -/
structure Adapter where
  kind : Kind
  size : Factor → ℕ

/-- An element of the parameters that a rank holds. -/
abbrev Elem {m : ℕ} (ads : Fin m → Adapter) : Type :=
  Σ x : Fin m, Σ f : Factor, Fin ((ads x).size f)

section
variable {m : ℕ} {ads : Fin m → Adapter}

/-- The gradients of the element are partial on each rank. -/
def Elem.reduced (e : Elem ads) : Bool := (ads e.1).kind.replicatedFactor = some e.2.1

/-- Every rank holds an element of its own. -/
def Elem.sharded (e : Elem ads) : Bool := (ads e.1).kind ≠ .rep && !e.reduced

end

/-- An element of the whole parameters: the element of a sharded factor with the rank that holds it. -/
abbrev Whole {m : ℕ} (ads : Fin m → Adapter) (n : ℕ) : Type :=
  { w : Elem ads × Option (Fin (n + 1)) // w.2.isSome = w.1.sharded }

/-- The element of the whole parameters that an element of a rank is. -/
def glob {m n : ℕ} {ads : Fin m → Adapter} (r : Fin (n + 1)) (e : Elem ads) : Whole ads n :=
  ⟨(e, if e.sharded then some r else none), by split <;> simp_all⟩

/-! ## The trainer -/

variable {I K σ B : Type}

/-- A trainer over the elements `I`: parameters, gradients (`none` until the first backward pass), the
state of the optimizer at each element, the micro-steps and the steps. -/
structure Trainer (I K σ : Type) where
  params : I → K
  grad : Option (I → K)
  opt : I → σ
  micro : ℕ
  steps : ℕ

/-- The clip threshold with the exact square root and the small number that `clip_grad_norm_` adds to
the norm. -/
structure Clip (K : Type) [Field K] [LinearOrder K] where
  threshold : K
  root : K → K
  eps : K
  root_nonneg : ∀ x, 0 ≤ root x
  root_mul : ∀ x, 0 ≤ x → root x * root x = x
  eps_pos : 0 < eps

section
variable [Field K]

/-- The backward pass of a micro-batch, which is left out when the batch has no label. -/
def Trainer.backward (t : Trainer I K σ) (g : Option (I → K)) : Trainer I K σ :=
  { t with
    micro := t.micro + 1
    grad := match g, t.grad with
      | none, h => h
      | some g, none => some g
      | some g, some h => some fun i => h i + g i }

/-- `opt.step` and `zero_grad`: the parameters without a gradient are left alone. -/
def Trainer.optStep (upd : I → σ → K → K → K × σ) (t : Trainer I K σ) : Trainer I K σ :=
  { t with
    params := match t.grad with
      | none => t.params
      | some g => fun i => (upd i (t.opt i) (t.params i) (g i)).1
    opt := match t.grad with
      | none => t.opt
      | some g => fun i => (upd i (t.opt i) (t.params i) (g i)).2
    grad := none
    steps := t.steps + 1 }

variable [LinearOrder K]

/-- The scale of `clip_grad_norm_` for a sum of squares. -/
def Clip.coef (c : Clip K) (sq : K) : K := min 1 (c.threshold / (c.root sq + c.eps))

/-- The scale that a trainer applies to its gradients. -/
def Trainer.scale [Fintype I] (c : Clip K) (t : Trainer I K σ) : K :=
  match t.grad with
  | none => 1
  | some g => c.coef (∑ i, g i ^ 2)

/-- `clip_grad_norm_`. -/
def Trainer.clip [Fintype I] (c : Clip K) (t : Trainer I K σ) : Trainer I K σ :=
  { t with grad := t.grad.map fun g i => g i * t.scale c }

end

/-! ## The micro-step -/

variable {m n : ℕ} {ads : Fin m → Adapter}

/-- `allreduce_grads`: the partial gradients of the replicated factors are summed over the ranks. -/
def allreduce [Field K] (ts : Fin (n + 1) → Trainer (Elem ads) K σ) (r : Fin (n + 1)) :
    Trainer (Elem ads) K σ :=
  { ts r with
    grad := (ts r).grad.map fun g e =>
      if e.reduced then ∑ q, (match (ts q).grad with
        | none => 0
        | some h => h e)
      else g e }

/-- What the ranks and the reference train with: the accumulation, the clip, and the optimizer. -/
structure Setup (ads : Fin m → Adapter) (K σ : Type) [Field K] [LinearOrder K] where
  accum : ℕ+
  clip : Clip K
  upd : Elem ads → σ → K → K → K × σ

section
variable [Field K] [LinearOrder K]

/-- The gradients of all ranks behind the backward pass. -/
def backwardAll (ts : Fin (n + 1) → Trainer (Elem ads) K σ) (l : Option (Fin (n + 1) → Elem ads → K))
    (r : Fin (n + 1)) : Trainer (Elem ads) K σ :=
  (ts r).backward (l.map fun l => l r)

/-- `micro_step` on all ranks, with the local gradients of the batch. -/
def microStep (s : Setup ads K σ) (ts : Fin (n + 1) → Trainer (Elem ads) K σ)
    (l : Option (Fin (n + 1) → Elem ads → K)) (r : Fin (n + 1)) : Trainer (Elem ads) K σ :=
  if (backwardAll ts l r).micro % s.accum = 0 then
    ((allreduce (backwardAll ts l) r).clip s.clip).optStep s.upd
  else backwardAll ts l r

/-- `micro_step` on one rank with the whole adapters. -/
def microStepWhole (s : Setup ads K σ) (t : Trainer (Whole ads n) K σ) (g : Option (Whole ads n → K)) :
    Trainer (Whole ads n) K σ :=
  if (t.backward g).micro % s.accum = 0 then
    ((t.backward g).clip s.clip).optStep fun w => s.upd w.1.1
  else t.backward g

end

/-- The gradients of a batch at given parameters: those of the ranks, and those of the whole. -/
structure Backward (ads : Fin m → Adapter) (n : ℕ) (K B : Type) where
  loc : B → (Fin (n + 1) → Elem ads → K) → Option (Fin (n + 1) → Elem ads → K)
  whole : B → (Whole ads n → K) → Option (Whole ads n → K)

/-- Local gradients as the module doc has them: those of a sharded factor are local and exact, those
of a replicated adapter exact, and those of the replicated factor of a sharded adapter are partial. -/
structure Sliced [Field K] (l : Fin (n + 1) → Elem ads → K) (g : Whole ads n → K) : Prop where
  exact : ∀ r e, e.reduced = false → l r e = g (glob r e)
  summed : ∀ e, e.reduced = true → ∑ r, l r e = g (glob 0 e)

/-- Ranks that hold the slices of the same parameters get the local gradients of the whole. -/
def Backward.Documented [Field K] (bw : Backward ads n K B) : Prop :=
  ∀ b θ, match bw.whole b θ with
    | none => bw.loc b (fun r e => θ (glob r e)) = none
    | some g => ∃ l, bw.loc b (fun r e => θ (glob r e)) = some l ∧ Sliced l g

/-- The ranks and the reference side by side. -/
structure Pair (ads : Fin m → Adapter) (n : ℕ) (K σ : Type) where
  ranks : Fin (n + 1) → Trainer (Elem ads) K σ
  ref : Trainer (Whole ads n) K σ

/-- A micro-step of both on the same batch. -/
def Pair.step [Field K] [LinearOrder K] (s : Setup ads K σ) (bw : Backward ads n K B)
    (p : Pair ads n K σ) (b : B) : Option (Pair ads n K σ) :=
  some ⟨microStep s p.ranks (bw.loc b fun r => (p.ranks r).params),
    microStepWhole s p.ref (bw.whole b p.ref.params)⟩

/-- Both at the start: the ranks hold the slices of the parameters `θ`. -/
def Pair.init (θ : Whole ads n → K) (o : Elem ads → σ) : Pair ads n K σ where
  ranks r := { params := fun e => θ (glob r e), grad := none, opt := o, micro := 0, steps := 0 }
  ref := { params := θ, grad := none, opt := fun w => o w.1.1, micro := 0, steps := 0 }

end SuffixHybrid.Lora
