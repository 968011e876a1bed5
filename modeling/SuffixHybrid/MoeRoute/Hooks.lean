import Mathlib.Tactic.Common
import Mathlib.Data.Nat.Bitwise

/-!
# The routing hooks of the MoE layers

The router hook defers its top-k as a job on the buffer pair that all layers share; the sort hook takes the
job and runs the fused kernel, or the deferred stock call and the stock sort. The rows of the buffer pair
remember which layer wrote them and how, so that a stale top-k can be told from a layer's own.
-/

namespace SuffixHybrid.MoeRoute

/-! ## Calls -/

/-- The dtypes the hooks ask for. -/
inductive Dtype where
  | bfloat16
  | int32
  | other
  deriving DecidableEq

/-- What the hooks read of a tensor. -/
structure Tensor where
  ptr : ℕ
  shape : List ℕ
  stride : List ℕ
  dtype : Dtype
  contiguous : Bool
  deriving DecidableEq

/-- The attributes of a router: `num_fused_shared_experts`, `renormalize`, whether `scoring_func` is
"softmax", whether `capture_fn`, `eplb_state` and `_routing_replay_out` are set, and `top_k`. -/
structure Router where
  shared : ℕ
  renormalize : Bool
  softmax : Bool
  capture : Bool
  eplb : Bool
  replay : Bool
  topK : ℕ

/-- A call of `_compute_routing`. `fuses` is `fuse_sigmoid_in_kernel`; the stock router returns tensors of
its own or the shared pair, or raises. -/
structure RouterCall where
  self : Router
  hidden : Tensor
  logits : Tensor
  indices : Option Dtype
  fuses : Bool
  own : Bool
  fails : Bool

/-- The tensors of a sort: those that the layer's router returned, or others. -/
inductive Ref where
  | router
  | other
  deriving DecidableEq

/-- A call of `moe_sorting`; `addr` is where the fused kernel's `sorted_ids` are allocated. The deferred call
may raise, and so may the fused kernel or the stock sort. -/
structure SortCall where
  ids : Ref
  weights : Ref
  numExperts : ℕ
  blockSize : ℕ
  policy : ℤ
  mask : Bool
  localTokens : Bool
  returnLocal : Bool
  flat : Bool
  aux : Bool
  bf16 : Bool
  addr : ℕ
  callFails : Bool
  fails : Bool

/-- A call of `quant_moe_sort`. -/
structure QuantCall where
  input : Tensor
  sortedIds : ℕ
  numRows : Bool
  groupSize : ℕ

/-- An MoE layer: its router, then aiter.fused_moe with its sort and stage-1 quant, as far as they are called. -/
structure Layer where
  router : RouterCall
  sort : Option SortCall
  quant : Option QuantCall

/-! ## State -/

/-- A deferred top-k, with the layer it is of. -/
structure Job where
  layer : ℕ
  logits : Tensor
  hidden : Tensor
  rows : ℕ
  deriving DecidableEq

/-- `_QUANT`: the `sorted_ids` and hidden states that a fused result is for, and its layer. -/
structure Entry where
  key : ℕ
  hidden : Tensor
  layer : ℕ
  deriving DecidableEq

/-- How a row of the buffers was written. -/
inductive How where
  | fused
  | deferred
  | stock
  deriving DecidableEq

/-- `_JOBS` and `_QUANT`, which never hold more than one entry; the rows of the shared pair, with the layer
that wrote each; and the layers whose deferred call has run. -/
structure St where
  jobs : Option Job
  quant : Option Entry
  buf : ℕ → Option (ℕ × How)
  ran : List ℕ

/-- Before the first layer. -/
def St.init : St := ⟨none, none, fun _ => none, []⟩

/-- Write the first rows of the shared pair. -/
def St.write (s : St) (rows layer : ℕ) (how : How) : St :=
  { s with buf := fun r => if r < rows then some (layer, how) else s.buf r }

/-- What raises: a job that is still pending, a sort on other ids while one is, or a call into AITER or
vLLM. -/
inductive Err where
  | neverReached
  | notRouters
  | call
  deriving DecidableEq

/-! ## Router -/

/-- `_eligible`. -/
@[irreducible] def eligible (maxM : ℕ) (c : RouterCall) : Bool :=
  let m := c.hidden.shape.headD 0
  let e := c.logits.shape.getLastD 0 - 1
  0 < m && m ≤ maxM && c.self.shared = 1 && c.self.renormalize && c.self.softmax &&
    !c.self.capture && !c.self.eplb && !c.self.replay &&
    (c.indices = none || c.indices = some .int32) && c.self.topK < 16 &&
    0 < e && e < 1023 && e &&& (e - 1) = 0 && c.logits.shape.length = 2 &&
    c.logits.stride.getD 1 0 = 1 && c.logits.dtype = .bfloat16 &&
    c.hidden.shape.length = 2 && c.hidden.contiguous && c.hidden.dtype = .bfloat16 &&
    c.hidden.shape.getD 1 0 % 512 = 0

/-- The rows of a layer. -/
def RouterCall.rows (c : RouterCall) : ℕ := c.hidden.shape.headD 0

/-- Whether the router defers its top-k. -/
def RouterCall.defers (maxM : ℕ) (c : RouterCall) : Bool := eligible maxM c && c.fuses

/-- `defer`. -/
def defer (s : St) (job : Job) : Except Err Unit × St :=
  if s.jobs.isSome then (.error .neverReached, s)
  else (.ok (), { s with quant := none, jobs := some job })

/-- Where the tensors that a router returns lie. -/
inductive Home where
  | shared
  | own
  deriving DecidableEq

/-- `_compute_routing` of layer `i`. -/
def computeRouting (maxM : ℕ) (s : St) (i : ℕ) (c : RouterCall) : Except Err Home × St :=
  if c.defers maxM then
    match defer s ⟨i, c.logits, c.hidden, c.rows⟩ with
    | (.error e, s) => (.error e, s)
    | (.ok _, s) => (.ok .shared, s)
  else if c.fails then (.error .call, s)
  else if c.own then (.ok .own, s)
  else (.ok .shared, s.write c.rows i .stock)

/-! ## Sort -/

/-- `BLOCKS`. -/
def blocks : List ℕ := [16, 32, 64, 128]

/-- What the tensors of a stock sort hold: rows of the shared pair, the tensors of a stock router, or others. -/
inductive Content where
  | rows (ps : List (Option (ℕ × How)))
  | own (layer : ℕ)
  | given

/-- What a sort was computed from. -/
inductive Source where
  | fused (layer : ℕ)
  | stock (ids weights : Content)

/-- Whether a tensor of the call is in the shared pair. -/
def Ref.onShared (r : Ref) (home : Home) : Bool := r = .router && home = .shared

/-- The content of a tensor of the call. -/
def content (s : St) (i rows : ℕ) (home : Home) : Ref → Content
  | .other => .given
  | .router => match home with
    | .own => .own i
    | .shared => .rows ((List.range rows).map s.buf)

/-- Whether the sort of a layer runs the fused kernel on a job. -/
def fusable (job : Job) (rows : ℕ) (home : Home) (c : SortCall) : Bool :=
  !c.mask && !c.localTokens && c.policy = 0 && !(c.returnLocal || c.flat || c.aux) &&
    rows = job.rows && c.weights.onShared home && c.numExperts = job.logits.shape.getD 1 0 &&
    blocks.contains c.blockSize && c.bf16

/-- The stock sort. -/
def origSort (s : St) (i rows : ℕ) (home : Home) (c : SortCall) : Except Err Source × St :=
  if c.fails then (.error .call, s)
  else (.ok (.stock (content s i rows home c.ids) (content s i rows home c.weights)), s)

/-- `_route`. -/
def route (s : St) (job : Job) (c : SortCall) : Except Err Source × St :=
  if c.fails then (.error .call, s)
  else (.ok (.fused job.layer), { s.write job.rows job.layer .fused with
    quant := some ⟨c.addr, job.hidden, job.layer⟩ })

/-- `moe_sorting` of layer `i`. -/
def moeSorting (s : St) (i rows : ℕ) (home : Home) (c : SortCall) : Except Err Source × St :=
  let hit := c.ids.onShared home
  let job := if hit then s.jobs else none
  let s := { s with quant := none, jobs := if hit then none else s.jobs }
  if s.jobs.isSome then (.error .notRouters, s)
  else match job with
    | none => origSort s i rows home c
    | some job =>
      if fusable job rows home c then route s job c
      else if c.callFails then (.error .call, s)
      else origSort { s.write job.rows job.layer .deferred with ran := s.ran ++ [job.layer] }
        i rows home c

/-- `quant_moe_sort`: the fused result it returns, none where it runs stock. -/
def quantMoeSort (s : St) (q : QuantCall) : Option Entry × St :=
  match s.quant with
  | none => (none, s)
  | some e =>
    if e.key = q.sortedIds then
      (if !q.numRows && q.groupSize = 32 && e.hidden.ptr = q.input.ptr &&
          e.hidden.shape = q.input.shape && e.hidden.stride = q.input.stride &&
          e.hidden.dtype = q.input.dtype then some e else none, { s with quant := none })
    else (none, s)

/-! ## Layers -/

/-- What a layer comes to: the error it raises, what its sort was computed from, and the fused result that
its quant returns. -/
structure Out where
  err : Option Err
  sorted : Option Source
  quant : Option Entry

/-- aiter.fused_moe in layer `i`: its sort, and its quant behind a sort that returns. -/
def fusedMoe (s : St) (i : ℕ) (l : Layer) (home : Home) : St × Out :=
  match l.sort with
  | none => (s, ⟨none, none, none⟩)
  | some c =>
    match moeSorting s i l.router.rows home c with
    | (.error e, s) => (s, ⟨some e, none, none⟩)
    | (.ok src, s) =>
      match l.quant with
      | none => (s, ⟨none, some src, none⟩)
      | some q => ((quantMoeSort s q).2, ⟨none, some src, (quantMoeSort s q).1⟩)

/-- Layer `i`. -/
def layer (maxM : ℕ) (s : St) (i : ℕ) (l : Layer) : St × Out :=
  match computeRouting maxM s i l.router with
  | (.error e, s) => (s, ⟨some e, none, none⟩)
  | (.ok home, s) => fusedMoe s i l home

/-- The state after the layers of a list, the first of them layer `i`. -/
def run (maxM : ℕ) (s : St) (i : ℕ) : List Layer → St
  | [] => s
  | l :: ls => run maxM (layer maxM s i l).1 (i + 1) ls

@[simp] lemma run_nil (maxM : ℕ) (s : St) (i : ℕ) : run maxM s i [] = s := rfl

@[simp] lemma run_cons (maxM : ℕ) (s : St) (i : ℕ) (l : Layer) (ls : List Layer) :
    run maxM s i (l :: ls) = run maxM (layer maxM s i l).1 (i + 1) ls := rfl

end SuffixHybrid.MoeRoute
