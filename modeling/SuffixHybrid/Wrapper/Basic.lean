import Mathlib.Data.List.TakeDrop
import SuffixHybrid.Mixer.Basic

/-!
# The V2 hybrid wrapper

The wrapper that `_wrap_propose` of `src/suffix_hybrid/wrap_v2.py` puts around the native drafter. On
a real step the native draft of the batch comes in, and the wrapper publishes it, or the draft that
the mixer makes of it, to all ranks of the tensor-parallel group.

`propose` first tries `fastBody`, which mixes from a host mirror of the token rows and skips the mix
where the frozen check or the probe allows it. The first exception there switches to `syncBody` for
good, and an exception of that body degrades the step to the native draft. Both bodies share the
table `previousWidths`, from which `acceptedLengths` reads the verifier's feedback.

Only the owner, rank 0, mixes; the other ranks receive its broadcast. What a step does to the outside
is its list of events. Local work that can fail for reasons outside the program (device copies, log
lines) fails where the step's fault tables say so.

The pinned staging buffers are written by copies on a side stream. What a read finds in them is an
input of the step, `onEntry` for the absorb on entry and `inFlight` for the mix; without CUDA, and for
the mix under `SPLIT=diverge`, it is what the step has staged itself. Timers and the skip counters,
which only the log lines read, are left out, as are dummy steps, which return the native draft.
-/

namespace SuffixHybrid
open Lib

/-- A draft matrix: one row of tokens a request. -/
abbrev Draft := List (List Token)

/-- The group, the environment and the mode of a wrapper. -/
structure WrapSettings where
  rank : ℕ
  worldSize : ℕ
  replay : Bool := false
  probabilistic : Bool := false
  verifierWin : Bool := false
  splitDiverge : Bool := false
  cuda : Bool := true
  interval : ℕ := 0
  cooldown : ℤ := 4
  heartbeat : ℤ := 8
  depth : ℤ := 64
  minLen : ℤ := 2
  indexN : ℤ := 8

/-- The points of a body at which local work can raise; the mixer raises on its own. -/
inductive Site where
  | clone
  | index
  | absorb
  | enqueue
  | noteSkip
  | read
  | noteUnchanged
  | write
  | report
  deriving DecidableEq

/-- An exception in a body: the mixer's or a check's, or a failure of local work. -/
inductive Exn where
  | raised (e : PyErr)
  | fault (site : Site)

/-- One row of a batch: the request, its row of the token buffer with the live length, the native
draft, the verifier's outcome and whether the row samples greedily. -/
structure BatchRow where
  id : ReqId
  tokens : List Token
  total : ℕ
  native : List Token
  sampled : ℤ
  rejected : ℤ
  greedy : Bool := true

/-- What a read finds in the pinned staging buffers, by batch position. -/
structure Staging where
  tail : ℕ → ℕ → Token
  count : ℕ → ℕ
  sampled : ℕ → ℤ
  rejected : ℕ → ℤ

/-- A real step: the batch, the draft width `k`, and what the step meets outside the wrapper. -/
structure Step where
  k : ℕ
  ncols : ℕ
  batch : List BatchRow
  order : HashOrder ReqId
  onEntry : Staging
  inFlight : Staging
  hook : Bool
  heard : Draft
  fast : Site → Bool
  sync : Site → Bool
  native_length : ∀ r ∈ batch, r.native.length = k
  tokens_length : ∀ r ∈ batch, r.tokens.length = ncols

namespace Step

/-- The request ids of the batch. -/
def ids (t : Step) : List ReqId := t.batch.map (·.id)

/-- The native draft of the batch. -/
def native (t : Step) : Draft := t.batch.map (·.native)

end Step

/-- What a step does to the outside: a call of `mix_numpy`, or a broadcast in the group. -/
inductive Event where
  | mix (mixer : HybridMixer) (ids : List ReqId) (accepted : List ℤ)
  | broadcast (draft : Draft)

/-- The closure state of the wrapper. -/
structure Wrapper where
  mixer : HybridMixer
  previousWidths : Map ReqId ℕ
  mirror : Map ReqId (List Token)
  w : ℕ
  pending : Option (List ReqId)
  gate : Map ReqId ℕ
  pendingWins : Map ReqId Unit
  steps : ℕ
  mixes : ℕ
  fallback : Bool

/-- How a body ends: the draft or an exception, the state it leaves and its events. -/
structure BodyOut where
  draft : Except Exn Draft
  state : Wrapper
  events : List Event

/-- How a step ends: the published draft, the state it leaves and its events. -/
structure StepOut where
  draft : Draft
  state : Wrapper
  events : List Event

namespace WrapSettings

/-- `_can_skip_collective`. -/
def canSkipCollective (cfg : WrapSettings) : Bool := cfg.worldSize ≤ 1 || cfg.replay

/-- The events of `_native_out`. -/
def nativeOut (cfg : WrapSettings) (native : Draft) : List Event :=
  if cfg.canSkipCollective then [] else [.broadcast native]

/-- `_hb_due`. -/
def hbDue (cfg : WrapSettings) (steps : ℕ) : Bool :=
  0 < cfg.heartbeat && (steps : ℤ) % cfg.heartbeat == 0

/-- The statistics line is due after this mix. -/
def reportDue (cfg : WrapSettings) (mixes : ℕ) : Bool :=
  cfg.interval != 0 && mixes % cfg.interval == 0

end WrapSettings

/-- The last tokens of a row, as the slice `[-depth:]` takes them. -/
def lastTokens (depth : ℤ) (row : List Token) : List Token :=
  if 0 < depth then row.drop (row.length - depth.toNat) else row.drop (-depth).toNat

/-- The window `[len, len + w)` of a token row, clamped to the row. -/
def windowSlice (w : ℕ) (tokens : List Token) (len : ℕ) : List Token := (tokens.drop len).take w

/-- `_accepted_lengths` for one row: `previous` is the width recorded for the request. -/
def acceptedLength (previous : ℕ) (ns nr : ℤ) : ℤ :=
  let a := ns - 1
  let verified := ns + nr - 1
  if 0 < ns ∧ 0 ≤ nr ∧ (0 < verified ∧ verified ≤ previous) ∧ (0 ≤ a ∧ a ≤ verified) ∧
      (a < verified ∨ verified = previous) then a
  else -1

/-- `_accepted_lengths`. -/
def acceptedLengths (widths : Map ReqId ℕ) (rows : List (ReqId × ℤ × ℤ)) : List ℤ :=
  rows.map fun (id, ns, nr) => acceptedLength ((widths.lookup id).getD 0) ns nr

/-- A row whose draft disagrees with the native one on its own length. -/
def differs (row native : List Token) : Bool := !row.isEmpty && row != native.take row.length

namespace Wrapper

/-- A wrapper around a mixer; `k` is the draft width known at installation, 0 if it is not. -/
def start (mixer : HybridMixer) (k : ℕ) : Wrapper where
  mixer
  previousWidths := ∅
  mirror := ∅
  w := if 0 < k then k + 2 else 0
  pending := none
  gate := ∅
  pendingWins := ∅
  steps := 0
  mixes := 0
  fallback := false

/-! ## The mirror -/

/-- One row of `_absorb_pending`. -/
def absorbRow (w : ℕ) (mirror : Map ReqId (List Token)) (id : ReqId) (count : ℕ)
    (tail : ℕ → Token) : Map ReqId (List Token) :=
  match mirror.lookup id with
  | none => mirror
  | some row =>
    if count ≤ row.length then if count = 0 then mirror.erase id else mirror
    else if w < count - row.length then mirror.erase id
    else mirror.put id (row ++ (List.range (count - row.length)).map tail)

/-- `_absorb_pending`, with what it finds in the staging buffers. -/
def absorbPending (s : Wrapper) (b : Staging) : Wrapper :=
  match s.pending with
  | none => s
  | some ids => { s with
    pending := none
    mirror := ids.zipIdx.foldl (fun m e => absorbRow s.w m e.1 (b.count e.2) (b.tail e.2)) s.mirror }

/-- A request that left the batch loses its mirror row and its gate state. -/
def forget (s : Wrapper) (id : ReqId) : Wrapper :=
  { s with
    mirror := s.mirror.erase id
    gate := s.gate.erase id
    pendingWins := s.pendingWins.erase id }

/-- `_seed_row` for a request without a mirror row. -/
def seedRow (mirror : Map ReqId (List Token)) (r : BatchRow) : Map ReqId (List Token) :=
  if r.id ∈ mirror then mirror else mirror.put r.id (r.tokens.take r.total)

/-- `_enqueue`, less the copies. -/
def enqueue (s : Wrapper) (t : Step) : Wrapper :=
  let s := (s.mirror.keys.filter fun id => id ∉ t.ids).foldl forget s
  { s with
    w := if s.w = 0 then max t.k 1 + 2 else s.w
    mirror := t.batch.foldl seedRow s.mirror
    pending := some t.ids }

/-- The staging buffers after the copies of `_enqueue` have landed over `old`. -/
def staged (s : Wrapper) (t : Step) (old : Staging) : Staging where
  tail i c := match t.batch[i]? with
    | none => old.tail i c
    | some r => (windowSlice s.w r.tokens ((s.mirror.lookup r.id).getD []).length)[c]?.getD
      (old.tail i c)
  count i := (t.batch[i]?.map (·.total)).getD (old.count i)
  sampled i := (t.batch[i]?.map (·.sampled)).getD (old.sampled i)
  rejected i := (t.batch[i]?.map (·.rejected)).getD (old.rejected i)

/-- The fast body from the absorb on entry to the step counter. -/
def prepare (cfg : WrapSettings) (s : Wrapper) (t : Step) : Wrapper :=
  let s := (s.absorbPending t.onEntry).enqueue t
  let s := if cfg.cuda then s else s.absorbPending (s.staged t t.onEntry)
  { s with steps := s.steps + 1 }

/-! ## The gates -/

/-- The full-path mixes of a request since its last win. -/
def misses (s : Wrapper) (id : ReqId) : ℕ := (s.gate.lookup id).getD 0

/-- The test of the frozen fast path. -/
def frozen (cfg : WrapSettings) (s : Wrapper) (t : Step) : Bool :=
  0 < cfg.cooldown && 0 < s.mixer.cacheTokens && !cfg.splitDiverge &&
    t.ids.all (fun id => cfg.cooldown ≤ s.misses id) && t.ids.all fun id => id ∈ s.mirror

/-- The step takes the frozen fast path: it is not a heartbeat step. -/
def freezes (cfg : WrapSettings) (s : Wrapper) (t : Step) : Bool :=
  s.frozen cfg t && !cfg.hbDue (s.steps + 1)

/-- The row loop of `_mirror_probe`. -/
def probeRows [F64] (cfg : WrapSettings) (s : Wrapper) (w : ℕ) : List ReqId → Option Bool
  | [] => some false
  | id :: ids =>
    match s.mirror.lookup id with
    | none => some true
    | some row =>
      let tail := lastTokens cfg.depth row
      if (tail.length : ℤ) < cfg.indexN then probeRows cfg s w ids
      else do
        let (suffix, _, _) ← s.mixer.cache.speculate tail w
        if cfg.minLen ≤ suffix.length ∧ (cfg.cooldown ≤ 0 ∨ s.misses id < cfg.cooldown) then some true
        else probeRows cfg s w ids

/-- `_mirror_probe`: the step needs the full path. -/
def mirrorProbe [F64] (cfg : WrapSettings) (s : Wrapper) (t : Step) : Option Bool :=
  if s.mixer.cacheTokens = 0 || cfg.hbDue s.steps || t.ids.isEmpty then some true
  else probeRows cfg s (if s.w = 0 then t.k + 2 else s.w) t.ids

/-- The full path is taken: under `SPLIT=diverge` always, else when the probe says so. -/
def probe [F64] (cfg : WrapSettings) (s : Wrapper) (t : Step) : Option Bool :=
  if cfg.splitDiverge then some true else s.mirrorProbe cfg t

/-- A skipped mix: the native draft is published at its full width. -/
def skip (cfg : WrapSettings) (s : Wrapper) (t : Step) : BodyOut :=
  if t.fast .noteSkip then ⟨.error (.fault .noteSkip), s, []⟩
  else
    ⟨.ok t.native,
      { s with previousWidths := s.previousWidths.update (t.ids.map fun id => (id, t.k)) },
      cfg.nativeOut t.native⟩

end Wrapper
end SuffixHybrid
