import SuffixHybrid.Proposer.Basic

/-!
# The asynchronous drafter

`AsyncSuffixDrafter` of `async_spec.py`, the suffix drafter for asynchronous scheduling. A step takes a
snapshot of the lengths of its rows. The next step looks up the continuations of the rows that are still
where they were, at those lengths (`absorb`), aligns them on the device with what the rows have become
(`resolve`) and remembers how many drafts of a request can be real (`hostWidths`); `trim` cuts the
schedule of the following step to that.

A step may raise at any point. It is degraded: nothing is published and the snapshot is dropped
(`degrade`), but what the proposer has done stays done. The event that a step waits for was recorded
behind all copies of the step before, so a snapshot is read as it was taken. The statistics are left out.
-/

namespace SuffixHybrid
open Lib

/-! ## The device resolve -/

/-- A row of the candidate staging: the candidate, the length that it continues, and its own length. -/
structure PackRow where
  cand : List Token
  anchor : ℤ
  clen : ℤ
  deriving DecidableEq

/-- A row of drafts, with the positions that are real. -/
structure Resolved where
  drafts : List Token
  real : List Bool
  deriving DecidableEq

/-- `torch.clamp`. -/
def clamp (x lo hi : ℤ) : ℤ := min (max x lo) hi

/-- The candidate agrees with what the row has gained since the snapshot. -/
def PackRow.aligned (lc : ℕ) (pack : PackRow) (total : ℤ) (row : List Token) : Bool :=
  let o := total - pack.anchor
  let hist (a : ℕ) := row.getD (clamp (pack.anchor + a) 0 (row.length - 1)).toNat 0
  ((List.range lc).all fun a => hist a == pack.cand.getD a 0 || decide ((a : ℤ) ≥ o)) && decide (o ≥ 1)

/-- A row of `resolve`. -/
def resolveRow (lc k : ℕ) (pack : PackRow) (total : ℤ) (row : List Token) : Resolved :=
  let j (i : ℕ) := total - pack.anchor + i
  let real (i : ℕ) := pack.aligned lc total row && decide (j i < pack.clen)
  { drafts := (List.range k).map fun i =>
      pack.cand.getD (clamp (j i) 0 (lc - 1)).toNat 0 * (real i).toNat
    real := (List.range k).map real }

/-- `resolve`, on the rows of the token buffer that the batch stands in. -/
def resolve (lc k : ℕ) (pack : List PackRow) (totals : List ℤ) (ats : Grid) (idx : List ℕ) :
    List Resolved :=
  (pack.zip (totals.zip idx)).map fun (p, total, i) => resolveRow lc k p total (ats.rows.getD i [])

/-! ## The state -/

/-- What a step leaves for the next one: the slot of its snapshot, its requests and their rows. -/
structure Pending where
  slot : ℕ
  ids : List ReqId
  idx : List ℕ
  deriving DecidableEq

/-- The drafter of a worker that owns its drafts. -/
structure AsyncSuffixDrafter where
  k : ℕ
  proposer : V2SuffixProposer
  probabilistic : Bool
  hybMin : ℕ
  snap : ℕ → List ℤ
  pending : Option Pending
  widths : Map ReqId ℕ
  step : ℕ

/-- Where a step raises of itself: before it has taken up the last snapshot, before the lookup, or after
it. -/
inductive Fault where
  | entry
  | lookup
  | resolve
  deriving DecidableEq

/-- What a step is called with: the batch, the lengths and tokens by row of the buffers, the native
drafts, the rows of zero temperature, and where the step raises. The host sees the token rows as they
are at the lookup, the device as they are at the resolve. -/
structure StepInput where
  order : HashOrder ReqId
  ids : List ReqId
  idx : List ℕ
  totals : List ℤ
  host : Grid
  ats : Grid
  native : Option (List (List Token))
  greedy : List Bool
  fault : Option Fault
  nodup : ids.Nodup
  idx_length : idx.length = ids.length

/-- The lengths of the rows of the batch. -/
def StepInput.rowTotals (x : StepInput) : List ℤ := x.idx.map fun i => x.totals.getD i 0

namespace AsyncSuffixDrafter

/-- A drafter as `install` builds it. -/
def new (cfg : Config) (k maxModelLen minLen hybMin : ℕ) (probabilistic : Bool) :
    Except PyErr AsyncSuffixDrafter := do
  let proposer ← V2SuffixProposer.new cfg (2 * k + 1) maxModelLen minLen false false
  return {
    k
    proposer
    probabilistic
    hybMin := if hybMin = 0 then k else max 1 (min k hybMin)
    snap := fun _ => []
    pending := none
    widths := ∅
    step := 0 }

/-- The length of a candidate. -/
def lc (d : AsyncSuffixDrafter) : ℕ := 2 * d.k + 1

/-! ## The lookup -/

/-- A row of the batch with its length in the last snapshot. -/
structure Lagged where
  pos : ℕ
  rid : ReqId
  row : ℕ
  total : ℤ
  deriving DecidableEq

/-- The length of a row in a snapshot, if the request stood in the same row there. -/
def lagged (d : AsyncSuffixDrafter) (pd : Pending) (rid : ReqId) (row : ℕ) : Option ℤ :=
  let j := pd.ids.idxOf rid
  let total := (d.snap pd.slot).getD j 0
  if rid ∈ pd.ids ∧ pd.idx.getD j 0 = row ∧ total > 0 then some total else none

/-- `_absorb`: the rows of the batch that have not moved since the last snapshot. -/
def absorb (d : AsyncSuffixDrafter) (x : StepInput) : List Lagged :=
  match d.pending with
  | none => []
  | some pd => (x.ids.zip x.idx).zipIdx.filterMap fun ((rid, row), pos) =>
      (d.lagged pd rid row).map fun total => { pos, rid, row, total }

/-- The arguments of the lookup. -/
def lookupBatch (x : StepInput) (sel : List Lagged) : V2SuffixProposer.Batch where
  o := x.order
  requestIds := sel.map (·.rid)
  indices := some (sel.map fun e => (e.row : ℤ))
  totals := some (sel.map (·.total))
  tokens := .i32 x.host

/-- The staging row of a row that was looked up, and of one that was not. -/
def packRow (lc : ℕ) (sel : List Lagged) (packed : V2SuffixProposer.Packed) (pos : ℕ) : PackRow :=
  match (sel.zip (packed.drafts.zip packed.widths)).find? fun e => e.1.pos = pos with
  | some (e, cand, clen) => { cand, anchor := e.total, clen }
  | none => { cand := List.replicate lc 0, anchor := 0, clen := 0 }

/-- The candidates of a batch. -/
def packRows (d : AsyncSuffixDrafter) (x : StepInput) (sel : List Lagged)
    (packed : V2SuffixProposer.Packed) : List PackRow :=
  (List.range x.ids.length).map (packRow d.lc sel packed)

/-- The resolved drafts of a batch. -/
def resolved (d : AsyncSuffixDrafter) (x : StepInput) (sel : List Lagged)
    (packed : V2SuffixProposer.Packed) : List Resolved :=
  SuffixHybrid.resolve d.lc d.k (d.packRows x sel packed) x.rowTotals x.ats x.idx

/-- How many drafts of a candidate can be real: at least one of its tokens has been sampled since. -/
def hostWidth (k : ℕ) (clen : ℕ) : ℕ := (clamp (clen - 1) 0 k).toNat

/-- The host widths of the rows that were looked up. A width of zero is left out. -/
def hostWidths (k : ℕ) (sel : List Lagged) (packed : V2SuffixProposer.Packed) : Map ReqId ℕ :=
  Map.update ∅ (((sel.map (·.rid)).zip (packed.widths.map (hostWidth k))).filter fun e => e.2 > 0)

/-- The drafts that a step returns: the resolved ones, or in the hybrid mode those rows of them that have
enough real drafts, in place of the native ones. -/
def choose (d : AsyncSuffixDrafter) (x : StepInput) (rows : List Resolved) : List (List Token) :=
  match x.native with
  | none => rows.map (·.drafts)
  | some native => ((rows.zip native).zip x.idx).map fun ((row, nat), i) =>
      let use := row.real.count true ≥ d.hybMin && (!d.probabilistic || x.greedy.getD i false)
      if use then row.drafts else nat

/-! ## The step -/

/-- The drafter with the snapshot of a batch. -/
def enqueue (d : AsyncSuffixDrafter) (x : StepInput) : AsyncSuffixDrafter :=
  let slot := d.step % 2
  { d with
    step := d.step + 1
    snap := Function.update d.snap slot x.rowTotals
    pending := some { slot, ids := x.ids, idx := x.idx } }

/-- `_step`. The result is `none` where the step raises. -/
def run [F64] (d : AsyncSuffixDrafter) (x : StepInput) :
    Option (Option (List (List Token)) × AsyncSuffixDrafter) :=
  match x.fault with
  | some .entry => some (none, d)
  | some .lookup => some (none, d.enqueue x)
  | fault =>
    let sel := d.absorb x
    (d.proposer.proposeSuffixOnly (lookupBatch x sel)).map fun (out, proposer) =>
      let d := { d.enqueue x with proposer }
      match out with
      | .error _ => (none, d)
      | .ok packed =>
        let d := { d with widths := hostWidths d.k sel packed }
        if fault = some .resolve then (none, d)
        else (some (d.choose x (d.resolved x sel packed)), d)

/-- `_degrade`. -/
def degrade (d : AsyncSuffixDrafter) : AsyncSuffixDrafter := { d with widths := ∅, pending := none }

/-- The drafts of a degraded step: the native ones, or zeros. -/
def passthrough (d : AsyncSuffixDrafter) (x : StepInput) : List (List Token) :=
  x.native.getD (x.ids.map fun _ => List.replicate d.k 0)

/-- `propose` in a step that is not a dummy run. -/
def propose [F64] (d : AsyncSuffixDrafter) (x : StepInput) :
    Option (List (List Token) × AsyncSuffixDrafter) :=
  (d.run x).map fun
    | (some out, d) => (out, d)
    | (none, d) => (d.passthrough x, d.degrade)

/-! ## The trim -/

/-- The schedule of a step: the draft tokens to verify, in the order of their requests, and the tokens
scheduled in all. -/
structure SchedulerOutput where
  spec : List (ReqId × List Token)
  structured : Bool
  numScheduled : Map ReqId ℤ
  totalScheduled : ℤ

/-- The width that a row of the schedule is cut to. -/
def trimWidth (d : AsyncSuffixDrafter) (rid : ReqId) (toks : List Token) : ℕ :=
  min ((d.widths.lookup rid).getD 0) toks.length

/-- The tokens that a row of the schedule loses. -/
def trimCut (d : AsyncSuffixDrafter) (e : ReqId × List Token) : ℕ := e.2.length - d.trimWidth e.1 e.2

/-- `trim`. Rows of width zero leave the schedule of drafts. -/
def trim (d : AsyncSuffixDrafter) (so : SchedulerOutput) : SchedulerOutput :=
  if so.spec = [] || so.structured then so
  else
    let cut := (so.spec.map d.trimCut).sum
    if cut = 0 then so
    else { so with
      spec := (so.spec.map fun e => (e.1, e.2.take (d.trimWidth e.1 e.2))).filter fun e => e.2 ≠ []
      numScheduled := (so.spec.filter fun e => d.trimCut e > 0).foldl (fun num e =>
        num.put e.1 ((num.lookup e.1).getD 0 - d.trimCut e)) so.numScheduled
      totalScheduled := so.totalScheduled - cut }

end AsyncSuffixDrafter
end SuffixHybrid
