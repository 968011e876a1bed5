import SuffixHybrid.Lib.Run
import SuffixHybrid.Mixer.Basic

/-!
# The pipelined read of the totals

`_suffix_only_wrap` of `wrap_v2.py` with the D2H pipe armed. A call of `propose` needs `total_len` of the
rows of its batch. It serves the copy that the call before has enqueued on the side stream (lag 1), if its
batch is the same, and blocks on a current read otherwise. The first failure inside `_pipe_get` disables
the pipe for good.

`Pipe` is the `pipe` dictionary with the staging buffer and the side stream. The copy of a call is ordered
behind the writes of its own step, and the next call waits for it. Nothing orders the next write of the
engine behind it, so it finds an entry at some moment between the two calls (`PipeCall.reads`). On the CPU
(`PipeSettings.sim`) it is made at once. Calls with `dummy_run` or `is_profile` return before the pipe and
are left out, and so are the wall-clock counters.
-/

namespace SuffixHybrid
open Lib

/-- `total_len` on the device over time, with the requests that own the rows. A moment ends with a write of
the engine. Rows are append-only and stay with their requests. -/
structure Totals where
  owner : ℕ → ℕ → Option ReqId
  total : ℕ → ℕ → ℕ
  appends : ∀ t i id, owner t i = some id → owner (t + 1) i = some id → total t i ≤ total (t + 1) i
  unique : ∀ t i j id, owner t i = some id → owner t j = some id → i = j
  keeps : ∀ t i j id, owner t i = some id → owner (t + 1) j = some id → i = j

/-- A request has a row from one moment to another. -/
def Totals.StaysLive (a : Totals) (id : ReqId) (t u : ℕ) : Prop :=
  ∀ v, t ≤ v → v ≤ u → ∃ i, a.owner v i = some id

/-- `SUFFIX_HYBRID_PIPE_EARLY` and the mode without CUDA. -/
structure PipeSettings where
  early : Bool
  sim : Bool

/-- The places at which a call may raise: the blocking read of a seed or of another batch, the wait for
the copy, its snapshot, the gather before and behind its issue, the counters at the end, the blocking read
after a failure, and what follows `_pipe_get`. -/
inductive PipePoint where
  | read
  | synchronize
  | snapshot
  | gather
  | record
  | account
  | reread
  | later
  deriving DecidableEq

/-- A call of `propose`: when it comes, its batch with the rows, whether a capture is under way, the
moments at which the copy that it waits for has found its entries, and the exceptions. -/
structure PipeCall where
  moment : ℕ
  ids : List ReqId
  lut : ReqId → ℕ
  capturing : Bool
  reads : ℕ → ℕ
  raises : PipePoint → Option String

/-- `idx_np`. -/
def PipeCall.idx (x : PipeCall) : List ℕ := x.ids.map x.lut

/-- `num_reqs`. -/
def PipeCall.n (x : PipeCall) : ℕ := x.ids.length

/-- `_totals_now`: the totals of the batch as they are. -/
def PipeCall.current (a : Totals) (x : PipeCall) : List ℕ := x.idx.map (a.total x.moment)

/-- A call that needs no blocking read raises nothing inside `_pipe_get`. -/
def PipeCall.calm (x : PipeCall) : Bool :=
  !x.capturing && [PipePoint.synchronize, .snapshot, .gather, .record, .account].all
    fun p => (x.raises p).isNone

/-- An exception inside `_pipe_get`, with the invariant that it is counted under. -/
structure PipeError where
  invariant : String
  text : String

/-- `_PipeInvariantError`, whose text repeats the invariant. -/
def PipeError.ofInvariant (invariant msg : String) : PipeError := ⟨invariant, invariant ++ ": " ++ msg⟩

/-- Any other exception. -/
def PipeError.other (text : String) : PipeError := ⟨"I10", text⟩

/-- `pipe["pending"]`. -/
structure PipePending where
  ids : List ReqId
  idx : List ℕ
  n : ℕ
  deriving DecidableEq

/-- `pipe["lag"]`. -/
structure PipeSnapshot where
  ids : List ReqId
  idx : List ℕ
  totals : List ℕ
  n : ℕ

/-- A copy on the side stream that no call has waited for. -/
structure StagedCopy where
  idx : List ℕ
  moment : ℕ
  deriving DecidableEq

/-- What happens to the copies: one is issued, one is absorbed, or the pipe discards what there is and
falls back. -/
inductive PipeEvent where
  | enqueue
  | absorb
  | discard
  deriving DecidableEq

/-- The array that a call gets, and whether it is the snapshot of the call before. -/
structure Served where
  totals : List ℕ
  lagged : Bool
  deriving DecidableEq

/-- The pipe, with the staging buffer, the copies under way and a log of what happened to them. -/
structure Pipe where
  armed : Bool
  pending : Option PipePending
  lag : Option PipeSnapshot
  fallback : Bool
  fallbackReason : String
  invariantFails : Map String ℕ
  steps : ℕ
  blockSteps : ℕ
  staging : ℕ → ℕ
  copies : List StagedCopy
  log : List PipeEvent

namespace Pipe

/-- The pipe when it is installed. -/
def start : Pipe where
  armed := false
  pending := none
  lag := none
  fallback := false
  fallbackReason := ""
  invariantFails := ∅
  steps := 0
  blockSteps := 0
  staging := fun _ => 0
  copies := []
  log := []

/-- `_pipe_fail`. -/
def fail (s : Pipe) (e : PipeError) : Pipe :=
  { s with
    fallback := true
    fallbackReason := if s.fallback then s.fallbackReason else e.invariant ++ ": " ++ e.text
    invariantFails :=
      s.invariantFails.put e.invariant ((s.invariantFails.lookup e.invariant).getD 0 + 1) }

/-- The buffer after a copy has found its entries. -/
def land (find : ℕ → ℕ → ℕ) (staging : ℕ → ℕ) (idx : List ℕ) (i : ℕ) : ℕ :=
  (idx[i]?.map (find i)).getD (staging i)

/-- `st_ev.synchronize()`. -/
def synchronized (a : Totals) (s : Pipe) (x : PipeCall) : Pipe :=
  { s with
    staging := s.copies.foldl
      (fun staging c => land (fun i => a.total (x.reads i)) staging c.idx) s.staging
    copies := [] }

/-- `_pipe_absorb`. -/
def absorb (a : Totals) (s : Pipe) (x : PipeCall) (p : PipePending) : Except PipeError PipeSnapshot × Pipe :=
  match x.raises .synchronize with
  | some text => (.error (.other text), s)
  | none =>
    let s := s.synchronized a x
    match x.raises .snapshot with
    | some text => (.error (.other text), s)
    | none =>
      let snap : PipeSnapshot :=
        { ids := p.ids, idx := p.idx, totals := (List.range p.n).map s.staging, n := p.n }
      (.ok snap, { s with lag := some snap, pending := none, log := s.log ++ [.absorb] })

/-- The snapshot is one of the same batch. -/
def aligned (snap : PipeSnapshot) (x : PipeCall) : Bool :=
  snap.n = x.n && snap.ids = x.ids && snap.idx = x.idx

/-- The totals of a call: a seed, the snapshot of the call before, or a current read. -/
def totals (a : Totals) (s : Pipe) (x : PipeCall) : Except PipeError Served × Pipe :=
  if s.armed = false then
    match x.raises .read with
    | some text => (.error (.other text), s)
    | none =>
      (.ok ⟨x.current a, false⟩,
        { s with armed := true, steps := s.steps + 1, blockSteps := s.blockSteps + 1 })
  else
    match s.pending with
    | none =>
      (.error (.ofInvariant "I1"
        "armed pipeline has no in-flight copy to absorb (seed/absorb chain broken)"), s)
    | some p =>
      match s.absorb a x p with
      | (.error e, s) => (.error e, s)
      | (.ok snap, s) =>
        if aligned snap x then (.ok ⟨snap.totals, true⟩, s)
        else
          match x.raises .read with
          | some text => (.error (.other text), s)
          | none => (.ok ⟨x.current a, false⟩, { s with blockSteps := s.blockSteps + 1 })

/-- `_pipe_enqueue`: the copy is issued to the side stream, or made at once. -/
def issue (cfg : PipeSettings) (a : Totals) (s : Pipe) (x : PipeCall) : Pipe :=
  if cfg.sim then
    { s with
      staging := land (fun _ => a.total x.moment) s.staging x.idx
      log := s.log ++ [.enqueue] }
  else { s with copies := s.copies ++ [⟨x.idx, x.moment⟩], log := s.log ++ [.enqueue] }

/-- `_pipe_enqueue` with the record of the pending copy. -/
def enqueue (cfg : PipeSettings) (a : Totals) (s : Pipe) (x : PipeCall) : Except PipeError Unit × Pipe :=
  match x.raises .gather with
  | some text => (.error (.other text), s)
  | none =>
    let s := s.issue cfg a x
    match x.raises .record with
    | some text => (.error (.other text), s)
    | none => (.ok (), { s with pending := some ⟨x.ids, x.idx, x.n⟩, steps := s.steps + 1 })

/-- The `try` block of `_pipe_get`. -/
def attempt (cfg : PipeSettings) (a : Totals) (s : Pipe) (x : PipeCall) : Except PipeError Served × Pipe :=
  if x.capturing then
    (.error (.ofInvariant "I3" "CUDA graph capture window reached the pipelined path"), s)
  else
    match s.totals a x with
    | (.error e, s) => (.error e, s)
    | (.ok served, s) =>
      match s.enqueue cfg a x with
      | (.error e, s) => (.error e, s)
      | (.ok (), s) =>
        match x.raises .account with
        | some text => (.error (.other text), s)
        | none => (.ok served, s)

/-- `_pipe_get`. -/
def get (cfg : PipeSettings) (a : Totals) (s : Pipe) (x : PipeCall) : Option Served × Pipe :=
  match s.attempt cfg a x with
  | (.ok served, s) => (some served, s)
  | (.error e, s) =>
    let s := ({ s with pending := none, log := s.log ++ [.discard] } : Pipe).fail e
    match x.raises .reread with
    | some _ => (none, s)
    | none => (some ⟨x.current a, false⟩, { s with blockSteps := s.blockSteps + 1 })

/-- The blocking read of a call whose pipe is disabled, if it comes that far. -/
def blocking (a : Totals) (x : PipeCall) : List Served :=
  if (x.raises .later).isSome then [] else [⟨x.current a, false⟩]

/-- The totals that a call of `propose` is served, and the pipe it leaves. A call with the early call site
whose pipe fails reads again at the late one. -/
def propose (cfg : PipeSettings) (a : Totals) (s : Pipe) (x : PipeCall) : List Served × Pipe :=
  if s.fallback then (blocking a x, s)
  else
    match s.get cfg a x with
    | (none, s) => ([], s)
    | (some served, s) =>
      if cfg.early = true ∧ s.fallback = true then (served :: blocking a x, s) else ([served], s)

/-- The pipe after a call. -/
def next (cfg : PipeSettings) (a : Totals) (s : Pipe) (x : PipeCall) : Option Pipe :=
  some (s.propose cfg a x).2

end Pipe
end SuffixHybrid
