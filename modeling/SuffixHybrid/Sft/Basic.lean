import Mathlib.Data.List.Infix
import Mathlib.Logic.Function.Basic
import Mathlib.Tactic.Common

/-!
# The SFT workers

The adapters of the tensor-parallel ranks and the ops of `worker.py` on them. A tensor of an adapter is
known by where its values come from: B is zero and A is drawn from a seed until they are copied from a run.
An op is one `collective_rpc`. Every rank runs it to its end, stops with an error, perhaps behind some of
its copies, or does not run it at all; the call may raise whatever the ranks have done. Requests are served
between the calls and leave entries in the prefix cache.

The values of a training run are the run's from its first optimizer step on, so `Op.step` is given the run's
id. The shards that `save` writes for a run are its working copies.
-/

namespace SuffixHybrid.Sft

/-- The factors of an adapter. -/
inductive Factor where
  | A
  | B
  deriving DecidableEq

/-- `tp_kind`. -/
inductive Kind where
  | col
  | row
  | rep
  deriving DecidableEq

/-- `LoRA.replicated_factor`. -/
def Kind.replicatedFactor : Kind → Option Factor
  | .col => some .A
  | .row => some .B
  | .rep => none

/-- A factor of the adapter with this number. -/
abbrev Tensor := ℕ × Factor

/-- Where the values of a tensor come from. -/
inductive Source where
  | initial
  | run (id : String)
  deriving DecidableEq

/-- The working copy of a run: what it was made from, and its values. -/
structure Run where
  start : Tensor → Source
  params : Tensor → Source

/-- The adapters of a rank, and its run. -/
structure Rank where
  live : Tensor → Source
  run : Option Run

/-- `TP` ranks with the same adapters. -/
structure Pod where
  tp : ℕ
  kinds : List Kind

namespace Pod
variable (P : Pod)

/-- The tensors in the order in which `load` copies them. -/
def tensors : List Tensor := (List.range P.kinds.length).flatMap fun i => [(i, .A), (i, .B)]

/-- The tensors that `reset` zeroes. -/
def zeroed : List Tensor := (List.range P.kinds.length).map fun i => (i, .B)

/-- The spans of a run, replicated factors first. -/
def spans : List Tensor :=
  [true, false].flatMap fun rep =>
    P.tensors.filter fun t => decide ((P.kinds[t.1]?.bind Kind.replicatedFactor) = some t.2) = rep

end Pod

/-! ## Ops -/

/-- The ops of a rank. -/
inductive Op where
  | begin
  | micro
  | step (id : String)
  | eval
  | save
  | commit
  | abort
  | load (id : String)
  | reset
  | kvFree
  | kvRestore

/-- `RUN_OPS`. -/
def Op.needsRun : Op → Bool
  | .micro => true
  | .step _ => true
  | .commit => true
  | _ => false

/-- The ops that leave the run alone when they fail. -/
def Op.keepsRun : Op → Bool
  | .eval => true
  | .save => true
  | _ => false

/-- What an op copies to the live adapters, in order. -/
def Op.copies (P : Pod) (k : Rank) : Op → List (Tensor × Source)
  | .load id => P.tensors.map fun t => (t, .run id)
  | .reset => P.zeroed.map fun t => (t, .initial)
  | .commit => match k.run with
    | some run => P.spans.map fun t => (t, run.params t)
    | none => []
  | _ => []

/-- Copy tensors. -/
def copy (live : Tensor → Source) (cs : List (Tensor × Source)) : Tensor → Source :=
  cs.foldl (fun live c => Function.update live c.1 c.2) live

/-- The run of a rank after an op. -/
def Op.runAfter (k : Rank) : Op → Option Run
  | .begin => some ⟨k.live, k.live⟩
  | .step id => k.run.map fun run => { run with params := fun _ => .run id }
  | .commit => none
  | .abort => none
  | _ => k.run

/-- How an op ends on a rank: an error comes behind this many copies. -/
inductive Outcome where
  | ok
  | error (copied : ℕ)
  | lost
  deriving DecidableEq

/-- An op on a rank. -/
def Rank.exec (P : Pod) (op : Op) (k : Rank) : Outcome → Rank
  | .ok => ⟨copy k.live (op.copies P k), op.runAfter k⟩
  | .error copied =>
    ⟨copy k.live ((op.copies P k).take copied), if op.keepsRun then k.run else none⟩
  | .lost => k

/-- What happens to a `collective_rpc`: on the ranks, to the call itself, and whether requests are served
behind it. -/
structure Call where
  outcome : ℕ → Outcome
  raises : Bool
  served : Bool

/-! ## The server -/

/-- The state that the status reports. -/
inductive Phase where
  | starting
  | idle
  | training
  | failed
  | serveFailedBase
  | loading
  | loadFailed
  | restoreFailed
  deriving DecidableEq

/-- The stages of a training run. -/
inductive Stage where
  | initialization
  | training
  | checkpoint
  | upload
  | serve
  deriving DecidableEq

/-- `State.status`. A checkpoint is missing, the pointer to the base model, or a run. -/
structure Status where
  state : Phase
  checkpoint : Option (Option String)
  runId : Option String
  stage : Option Stage
  error : Option String
  rejected : Option String

/-- What `metadata.json` says of a run, with what the working copies were made from. -/
structure Record where
  runId : String
  parent : Option String
  start : ℕ → Tensor → Source

/-- The ranks, the status, the prefix cache with the adapters that its entries were computed under, and
the metadata written so far. -/
structure World where
  ranks : ℕ → Rank
  status : Status
  cache : List (ℕ → Tensor → Source)
  records : List Record

namespace World

/-- The adapters of all ranks. -/
def live (w : World) (r : ℕ) : Tensor → Source := (w.ranks r).live

/-- What the runs of the ranks have started from. A rank without a run saves its live adapters. -/
def start (w : World) (r : ℕ) : Tensor → Source := match (w.ranks r).run with
  | some run => run.start
  | none => (w.ranks r).live

/-- A server that starts. -/
def fresh : World where
  ranks := fun _ => ⟨fun _ => .initial, none⟩
  status := ⟨.starting, none, none, none, none, none⟩
  cache := []
  records := []

/-- Requests are served. -/
def serve (w : World) (served : Bool) : World := if served then { w with cache := w.live :: w.cache } else w

/-- The liveness vote in front of an op. -/
def vote (P : Pod) (op : Op) (w : World) : Bool :=
  !op.needsRun || (List.range P.tp).all fun r => (w.ranks r).run.isSome

/-- The ranks after a `collective_rpc`. -/
def rpcRanks (P : Pod) (op : Op) (c : Call) (w : World) (r : ℕ) : Rank :=
  if r < P.tp then
    if w.vote P op then (w.ranks r).exec P op (c.outcome r)
    else if c.outcome r = .lost then w.ranks r else { w.ranks r with run := none }
  else w.ranks r

/-- `State.rpc`. -/
def rpc (P : Pod) (op : Op) (c : Call) (w : World) : World := serve { w with ranks := w.rpcRanks P op c } c.served

/-- No rank reports an error. -/
def good (P : Pod) (op : Op) (c : Call) (w : World) : Bool :=
  w.vote P op && (List.range P.tp).all fun r => c.outcome r = .ok

/-- `State.rpc` returns when errors are checked. -/
def returns (P : Pod) (op : Op) (c : Call) (w : World) : Bool := !c.raises && w.good P op c

end World
end SuffixHybrid.Sft
