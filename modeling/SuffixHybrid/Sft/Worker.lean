import Mathlib.Algebra.BigOperators.Fin
import Mathlib.Algebra.Order.Field.Basic
import SuffixHybrid.Lib.Layout
import SuffixHybrid.Tune.Shard

/-!
# The optimizer step of a training run

`Run` keeps the adapters of a rank in one flat buffer, the factors whose gradients are partial first.
`reduceGrads` sums these over the ranks and takes the norm over all ranks, `stepAll` clips by it and makes an AdamW
step on each rank. Run on one rank with the whole adapters, which are replicated there, both are the reference.
All ranks are taken together, because they wait for each other in every collective.
-/

namespace SuffixHybrid.SftWorker

open Finset Lib Lora

/-! ## The flat buffer -/

/-- The kind and the local shape of an adapter: A is `[k, r]` and B is `[r, n]`. -/
structure LoRA where
  kind : Kind
  k : ℕ
  n : ℕ
  r : ℕ

/-- The columns of a factor. -/
def LoRA.cols (a : LoRA) : Factor → ℕ
  | .A => a.r
  | .B => a.n

/-- `_numel` of a factor. -/
def LoRA.numel (a : LoRA) : Factor → ℕ
  | .A => a.k * a.r
  | .B => a.r * a.n

variable {m : ℕ}

/-- The name of a factor: the adapters are numbered in their order. -/
abbrev Key (m : ℕ) := Fin m × Factor

/-- The elements of a factor. -/
def size (ads : Fin m → LoRA) (key : Key m) : ℕ := (ads key.1).numel key.2

/-- The gradients of the factor are partial. -/
def reduced (ads : Fin m → LoRA) (key : Key m) : Bool :=
  decide ((ads key.1).kind.replicatedFactor = some key.2)

/-- One round of the outer loop in `Run.__init__`. -/
def keys (ads : Fin m → LoRA) (wantRep : Bool) : List (Key m) :=
  (List.finRange m).flatMap fun x =>
    ([Factor.A, Factor.B].map fun f => (x, f)).filter fun key => reduced ads key == wantRep

/-- `spans`. -/
def spans (ads : Fin m → LoRA) : List (Key m × ℕ) := place (size ads) 0 (keys ads true ++ keys ads false)

/-- `n_rep`. -/
def nRep (ads : Fin m → LoRA) : ℕ := extent (size ads) (keys ads true)

/-- The length of the flat buffer. -/
def off (ads : Fin m → LoRA) : ℕ := extent (size ads) (keys ads true ++ keys ads false)

/-- `spans[key]`. -/
def start (ads : Fin m → LoRA) (key : Key m) : ℕ := ((spans ads).lookup key).getD 0

/-! ## The run -/

/-- The exact square root. -/
structure Root (K : Type) [Field K] [LinearOrder K] where
  root : K → K
  root_nonneg : ∀ x, 0 ≤ root x
  root_mul : ∀ x, 0 ≤ x → root x * root x = x

/-- The arguments of `Run`. -/
structure Config (K : Type) [Field K] [LinearOrder K] extends Root K where
  lr : K
  weightDecay : K
  clip : K
  lrBRatio : K

/-- What a run changes: the working copy with its gradient, the master, the moments and the counters. -/
structure Run (K : Type) where
  flat : ℕ → K
  grad : Option (ℕ → K)
  master : ℕ → K
  m : ℕ → K
  v : ℕ → K
  t : ℕ
  steps : ℕ

section
variable {K : Type} [Field K]

/-- `Run.__init__`, of the row-major factors. -/
def Run.init (ads : Fin m → LoRA) (factor : Key m → ℕ → K) : Run K :=
  let flat := fillAll (size ads) (fun key i _ => factor key i) (fun _ => 0) (spans ads)
  ⟨flat, none, flat, fun _ => 0, fun _ => 0, 0, 0⟩

/-- A backward pass adds to the gradient. -/
def Run.backward (g : ℕ → K) (run : Run K) : Run K :=
  { run with
    grad := match run.grad with
      | none => some g
      | some h => some fun p => h p + g p }

/-- The sum of `all_reduce`, which every rank gets. -/
def allReduce {W : ℕ} (x : Fin W → K) (_ : Fin W) : K := ∑ q, x q

/-- The gradient of a rank behind the sum of the partial ones. -/
def reduceRep {W : ℕ} (ads : Fin m → LoRA) (g : Fin W → ℕ → K) (r : Fin W) (p : ℕ) : K :=
  if (1 < W ∧ nRep ads ≠ 0) ∧ p < nRep ads then allReduce (fun q => g q p) r else g r p

/-- The square of the norm. -/
def normSq {W : ℕ} (ads : Fin m → LoRA) (g : Fin W → ℕ → K) (r : Fin W) : K :=
  let rep r := ∑ p ∈ range (nRep ads), reduceRep ads g r p ^ 2
  let shard r := ∑ p ∈ Ico (nRep ads) (off ads), reduceRep ads g r p ^ 2
  rep r + if 1 < W then allReduce shard r else shard r

variable [LinearOrder K]

/-- `lr_vec`. -/
def lrVec (ads : Fin m → LoRA) (cfg : Config K) : ℕ → K :=
  fillAll (size ads) (fun key _ lr => if key.2 = .B then cfg.lr * cfg.lrBRatio else lr) (fun _ => cfg.lr) (spans ads)

/-- `reduce_grads`: the gradient and the norm. -/
def reduceGrads {W : ℕ} (ads : Fin m → LoRA) (cfg : Config K) (g : Fin W → ℕ → K) (r : Fin W) : (ℕ → K) × K :=
  (reduceRep ads g r, cfg.root (normSq ads g r))

/-- `Run.step` behind `reduce_grads`; over exact values the norm is finite. -/
def Run.adamW (ads : Fin m → LoRA) (cfg : Config K) (run : Run K) (g : ℕ → K) (norm : K) : Run K :=
  let b1 : K := (9 : ℕ) / (10 : ℕ)
  let b2 : K := (999 : ℕ) / (1000 : ℕ)
  let eps : K := 1 / (10 ^ 8 : ℕ)
  let g p := g p * min 1 (cfg.clip / (norm + 1 / (10 ^ 6 : ℕ)))
  let t := run.t + 1
  let m p := run.m p * b1 + g p * (1 - b1)
  let v p := run.v p * b2 + g p * g p * (1 - b2)
  let upd p := m p / (1 - b1 ^ t) / (cfg.root (v p / (1 - b2 ^ t)) + eps)
  let upd p := if cfg.weightDecay ≠ 0 then upd p + run.master p * cfg.weightDecay else upd p
  let master p := run.master p - upd p * lrVec ads cfg p
  ⟨master, none, master, m, v, t, run.steps + 1⟩

/-- `Run.step` on all ranks, and the norms that it returns. -/
def stepAll {W : ℕ} (ads : Fin m → LoRA) (cfg : Config K) (runs : Fin W → Run K) :
    Except String ((Fin W → Run K) × (Fin W → K)) :=
  if h : ∀ r, (runs r).grad.isSome then
    let out := reduceGrads ads cfg fun r => (runs r).grad.get (h r)
    .ok (fun r => (runs r).adamW ads cfg (out r).1 (out r).2, fun r => (out r).2)
  else .error "RuntimeError: step without gradients"

end

/-! ## The whole adapters -/

/-- An adapter on one rank, where every adapter counts as replicated. -/
def LoRA.whole (a : LoRA) (world : ℕ) : LoRA where
  kind := .rep
  k := if a.kind = .row then a.k * world else a.k
  n := if a.kind = .col then a.n * world else a.n
  r := a.r

/-- The adapters on one rank. -/
def whole (ads : Fin m → LoRA) (world : ℕ) (x : Fin m) : LoRA := (ads x).whole world

/-- The place in the whole factor of a place in the factor of a rank: a row adapter has its rows of A, a column
adapter its columns of B. -/
def LoRA.glob (a : LoRA) (world rank : ℕ) (f : Factor) (i : ℕ) : ℕ :=
  let row := i / a.cols f
  let col := i % a.cols f
  match a.kind, f with
  | .row, .A => (rank * a.k + row) * a.r + col
  | .col, .B => row * (a.n * world) + (rank * a.n + col)
  | _, _ => i

/-- The place in the whole flat buffer of the place `i` of a factor of a rank. -/
def wholeAt (ads : Fin m → LoRA) (world rank : ℕ) (key : Key m) (i : ℕ) : ℕ :=
  start (whole ads world) key + (ads key.1).glob world rank key.2 i

/-! ## Ranks and reference side by side -/

section
variable {K : Type} [Field K] {n : ℕ}

/-- The gradients of a backward pass. A partial one sums up to that of the whole, the others are the shard of it, or
all of it on a replicated adapter. -/
structure Sliced (ads : Fin m → LoRA) (loc : Fin (n + 1) → ℕ → K) (G : ℕ → K) : Prop where
  summed : ∀ key, reduced ads key = true → ∀ i < size ads key,
    ∑ r, loc r (start ads key + i) = G (wholeAt ads (n + 1) 0 key i)
  exact : ∀ key, reduced ads key = false → ∀ i < size ads key, ∀ r,
    loc r (start ads key + i) = G (wholeAt ads (n + 1) r key i)

/-- The gradients of the ranks and of the whole. -/
structure Grads (ads : Fin m → LoRA) (n : ℕ) (K : Type) [Field K] where
  loc : Fin (n + 1) → ℕ → K
  whole : ℕ → K
  sliced : Sliced ads loc whole

/-- What is done with a run. -/
inductive Op (ads : Fin m → LoRA) (n : ℕ) (K : Type) [Field K] where
  | backward (g : Grads ads n K)
  | step

/-- The ranks, and the one rank of the reference. -/
structure Pair (n : ℕ) (K : Type) where
  ranks : Fin (n + 1) → Run K
  ref : Fin 1 → Run K

/-- The run of the reference. -/
abbrev Pair.reference (p : Pair n K) : Run K := p.ref ⟨0, Nat.one_pos⟩

/-- Both from the whole factors. -/
def Pair.init (ads : Fin m → LoRA) (n : ℕ) (factor : Key m → ℕ → K) : Pair n K where
  ranks r := Run.init ads fun key i => factor key ((ads key.1).glob (n + 1) r key.2 i)
  ref _ := Run.init (whole ads (n + 1)) factor

variable [LinearOrder K]

/-- An operation on both; without gradients both raise. -/
def Pair.step (ads : Fin m → LoRA) (cfg : Config K) (p : Pair n K) : Op ads n K → Option (Pair n K)
  | .backward g => some ⟨fun r => (p.ranks r).backward (g.loc r), fun r => (p.ref r).backward g.whole⟩
  | .step => do
    let (ranks, _) ← (stepAll ads cfg p.ranks).toOption
    let (ref, _) ← (stepAll (whole ads (n + 1)) cfg p.ref).toOption
    some ⟨ranks, ref⟩

end

end SuffixHybrid.SftWorker
