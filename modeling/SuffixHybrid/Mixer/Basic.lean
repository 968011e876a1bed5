import Mathlib.Data.List.Dedup
import SuffixHybrid.Cache.Basic
import SuffixHybrid.Engine.Ngram

/-!
# The hybrid mixer

`HybridMixer` of `src/mixer.rs`: for every request of a batch a native draft comes in and a draft of
at most `k` tokens goes out, which keeps a prefix of the native draft and may continue it from the
suffix cache. The state is the shared cache, one `Previous` record a tracked request, and counters.

`mixCore` is the common body of both entry points. It grades the last proposals with the verifier's
feedback (`feedback`), donates the histories of departed requests to the cache (`depart`) and then
runs the rows one by one (`rows`), each with `legacyRow` or, under `SPLIT=diverge`, `divergeRow`. The
entry points differ in how a row is compared with its tracked context: `mix` takes full contexts,
`mixNumpy` counts and a token matrix.

As in the cache, a result `none` is a panic. A Python exception is a value of `PyErr`; it comes with
the state in which the call leaves the mixer. The wall-clock counter `elapsed_ns` and the argument
`step_time_ns`, which nothing reads, are left out.
-/

namespace SuffixHybrid
open Lib

/-- A request id. -/
abbrev ReqId := String

/-- An exception raised into Python. -/
inductive PyErr where
  | valueError (msg : String)
  deriving DecidableEq

/-- Evidence buckets of the divergence trust. -/
abbrev divBuckets : ℕ := 6

/-- `div_bucket`. -/
def divBucket (selfLookup : Bool) (matched : ℕ) : Fin divBuckets :=
  let tier : Fin divBuckets := if matched < 16 then 0 else if matched < 32 then 1 else 2
  tier + if selfLookup then 3 else 0

/-- The first position where the suffix candidate of a proposal disagrees with its native draft. -/
structure Divergence where
  j : ℕ
  suffixTok : Token
  nativeTok : Token
  bucket : Fin divBuckets
  deriving DecidableEq

/-- What the mixer keeps of the last proposal of a request. -/
structure Previous where
  context : List Token
  native : ℕ
  length : ℕ
  arm : ℕ
  acceptEstimate : ℚ
  suffixEstimate : Option ℚ
  hadSuffix : Bool
  div : Option Divergence
  deriving DecidableEq

/-- How the context of a row relates to the tracked one. -/
inductive Continuity where
  | fresh
  | continuing
  | reset
  deriving DecidableEq

/-- A row classifier: from the row index and the tracked context, how the row relates to it and the
tokens to append. -/
abbrev Decide := ℕ → Option (List Token) → Option (Continuity × List Token)

/-- The settings read from the environment when a mixer is made. -/
structure MixerEnv where
  diverge : Bool := false
  divThreshold : ℚ := 1 / 2
  selfLo : ℕ := 4
  selfHi : ℕ := 16
  selfWindow : ℕ := 8192
  deriving DecidableEq

/-- The state of a mixer. -/
structure HybridMixer where
  cache : Cache
  previous : Map ReqId Previous
  k : ℕ
  maxModelLen : ℕ
  calls : ℕ
  decisions : ℕ
  initial : ℕ
  lastNative : List ℕ
  nativeTested : ℕ
  nativeAccepted : ℕ
  suffixTested : ℕ
  suffixAccepted : ℕ
  nativeProposed : ℕ
  suffixProposed : ℕ
  env : MixerEnv
  divWins : Fin divBuckets → ℚ × ℚ
  divObserved : ℕ
  divSuffixPublished : ℕ
  selfHits : ℕ
  k_pos : 0 < k

/-- `boundary_matches`: the tracked context and the row agree on the first and on the last 64 tokens
of the tracked context. -/
def boundaryMatches (tracked row : List Token) : Bool :=
  let l := tracked.length
  if row.length < l then false
  else
    let w := min 64 l
    tracked.take w == row.take w && tracked.drop (l - w) == (row.drop (l - w)).take w

/-- The common part of the four row classifiers: `same` says whether a row extends the tracked
context. -/
def classify (same : List Token → List Token → Bool) (row : List Token) :
    Option (List Token) → Option (Continuity × List Token)
  | none => some (.fresh, row)
  | some t =>
    if same t row then (sliceFrom row t.length).map fun delta => (.continuing, delta)
    else some (.reset, row)

/-- The exact prefix test. -/
def startsWith (tracked row : List Token) : Bool := tracked.isPrefixOf row

/-- The classifier of the list API. -/
def decideContexts (contexts : List (List Token)) : Decide := fun i tracked => do
  let ctx ← contexts[i]?
  classify startsWith ctx tracked

/-- The classifier of a contiguous `int64` matrix: row `i` is a slice of the flat buffer. -/
def decideFlat (flat : List Token) (ncols : ℕ) (counts : List ℤ) : Decide := fun i tracked => do
  let count ← counts[i]?
  let row ← slice flat (i * ncols) (i * ncols + count.toNat)
  classify boundaryMatches row tracked

/-- The classifier of a strided `int64` and of an `int32` matrix: row `i` is copied. -/
def decideRows (rows : List (List Token)) (counts : List ℤ) : Decide := fun i tracked => do
  let count ← counts[i]?
  let row ← rows[i]?
  classify startsWith (row.take count.toNat) tracked

namespace HybridMixer

/-- A mixer that has seen nothing. -/
def empty (cfg : Config) (env : MixerEnv) (k maxModelLen : ℕ) (hk : 0 < k) : HybridMixer where
  cache := Cache.new cfg
  previous := ∅
  k
  maxModelLen
  calls := 0
  decisions := 0
  initial := k
  lastNative := []
  nativeTested := 0
  nativeAccepted := 0
  suffixTested := 0
  suffixAccepted := 0
  nativeProposed := 0
  suffixProposed := 0
  env := { env with divThreshold := min (max env.divThreshold 0) 1 }
  divWins := fun _ => (0, 0)
  divObserved := 0
  divSuffixPublished := 0
  selfHits := 0
  k_pos := hk

/-- `HybridMixer::new`. -/
def new (cfg : Config) (env : MixerEnv) (k maxModelLen : ℕ) : Except PyErr HybridMixer :=
  if h : (1 ≤ k ∧ k ≤ 64) ∧ 1 ≤ maxModelLen ∧ maxModelLen ≤ 16777216 then
    .ok (empty cfg env k maxModelLen h.1.1)
  else .error (.valueError "hybrid budget must be 1..64 and context 1..16777216")

/-- `cache_tokens`. -/
def cacheTokens (s : HybridMixer) : ℕ := s.cache.tokens

/-! ## Feedback -/

/-- `0.7 * e + 0.3 * x`. -/
def ewma [F64] (e x : ℚ) : ℚ :=
  F64.add (F64.mul (F64.round (7 / 10)) e) (F64.mul (F64.round (3 / 10)) x)

/-- The suffix estimate after feedback on a proposal. -/
def gradeSuffix [F64] (p : Previous) (accepted : ℕ) : Option ℚ :=
  if p.hadSuffix = true ∧ min accepted p.native < p.native then
    let suffixGot := F64.ofNat (accepted - p.native)
    match p.suffixEstimate with
    | some e => some (ewma e suffixGot)
    | none => some suffixGot
  else p.suffixEstimate

/-- The estimates of a request after feedback on its last proposal. -/
def grade [F64] (p : Previous) (accepted : ℕ) : Previous :=
  if 0 < p.length then
    { p with
      acceptEstimate :=
        if accepted ≥ p.length then F64.ofNat p.length else ewma p.acceptEstimate (F64.ofNat accepted)
      suffixEstimate := gradeSuffix p accepted }
  else p

/-- The feedback of one row: counters and estimates. -/
def feedbackRow [F64] (s : HybridMixer) (id : ReqId) (accepted : ℤ) : HybridMixer :=
  if accepted < 0 then s
  else
    match s.previous.lookup id with
    | none => s
    | some p =>
      let accepted := accepted.toNat
      let tested := min (accepted + 1) p.length
      { s with
        nativeTested := s.nativeTested + min tested p.native
        nativeAccepted := s.nativeAccepted + min accepted p.native
        suffixTested := s.suffixTested + (tested - p.native)
        suffixAccepted := s.suffixAccepted + (accepted - p.native)
        previous := s.previous.put id (grade p accepted) }

/-- The feedback pass of `mix_core`. -/
def feedback [F64] (s : HybridMixer) (ids : List ReqId) (accepted : Option (List ℤ)) : HybridMixer :=
  match accepted with
  | none => s
  | some feedback => (ids.zip feedback).foldl (fun s (id, a) => s.feedbackRow id a) s

/-! ## Departures -/

/-- The tracked requests that are not in the batch, in the order of the hash map. -/
def gone (o : HashOrder ReqId) (s : HybridMixer) (ids : List ReqId) : List ReqId :=
  (o.order s.previous.keys).filter (· ∉ ids)

/-- A departed request donates its history. -/
def departRow (s : HybridMixer) (id : ReqId) : Option HybridMixer := do
  let p ← s.previous.lookup id
  let cache ← s.cache.add p.context
  some { s with previous := s.previous.erase id, cache }

/-- The departure pass of `mix_core`. -/
def depart (o : HashOrder ReqId) (s : HybridMixer) (ids : List ReqId) : Option HybridMixer :=
  run departRow s (s.gone o ids)

/-! ## Rows of the legacy split -/

/-- The widest draft of a row. -/
def rowCap (s : HybridMixer) (contextLen : ℕ) (native : List Token) : ℕ :=
  min (min s.k (s.maxModelLen - contextLen)) native.length

/-- The draft budget of a row: its estimate rounded up, between 1 and `k`. -/
def pick [F64] (s : HybridMixer) (estimate : Option ℚ) : ℕ :=
  max 1 (min (F64.ceilUsize (estimate.getD (F64.ofNat s.initial))) s.k)

/-- The number of native tokens a row keeps. -/
def keptPrefix (continuing : Bool) (budget cap : ℕ) : ℕ :=
  let floor := max (cap - 1) 1
  if continuing then
    let b := min budget cap
    if b ≥ cap then cap else max b floor
  else cap

/-- The lookup key of a row: the last `depth` tokens of its context and the kept native tokens but
the last. -/
def lookupKey (depth : ℕ) (continuity : Continuity) (slot : Option Previous)
    (delta native : List Token) (kept : ℕ) : Option (List Token) := do
  let tail ← match continuity, slot with
    | .continuing, some p =>
      let take := min (depth - delta.length) p.context.length
      sliceFrom p.context (p.context.length - take)
    | _, _ => some []
  let delta ← sliceFrom delta (delta.length - depth)
  let native ← sliceTo native (kept - 1)
  some (tail ++ delta ++ (native))

/-- Count on from `count` while the draft repeats the native draft. The first argument counts the
draft tokens that are left. -/
def leadingNative (draft native : List Token) : ℕ → ℕ → Option ℕ
  | 0, count => some count
  | left + 1, count =>
    if count < native.length then do
      let a ← draft[count]?
      let b ← native[count]?
      if a = b then leadingNative draft native left (count + 1) else some count
    else some count

/-- The gate of a row lets a tail replace native tokens. -/
def gateOpen (gate : Option ℚ) : Bool := gate.all fun e => 1 ≤ e

/-- The draft of a row with a suffix tail, its native count, and whether the tail shows. -/
def splice (native tail : List Token) (cap kept : ℕ) (gate : Option ℚ) :
    Option (List Token × ℕ × Bool) := do
  let keepPrefix := kept - 1
  let dropped := kept - keepPrefix
  let combined ← sliceTo native kept
  let combined :=
    if kept > keepPrefix ∧ tail.length ≥ dropped ∧ gateOpen gate = true then
      combined.take keepPrefix ++ tail
    else combined ++ tail.take (cap - combined.length)
  let keep := min combined.length cap
  let combined := combined.take keep
  let count := min keepPrefix keep
  let nativeCount ← leadingNative combined native (keep - count) count
  some (combined, nativeCount, decide (combined.length > nativeCount))

/-- Before the lookup of a reset row the old history goes to the cache and leaves the slot. -/
def takeReset (s : HybridMixer) (continuity : Continuity) (slot : Option Previous) :
    Option (Cache × Option Previous) :=
  match continuity, slot with
  | .reset, some p => (s.cache.add p.context).map fun c => (c, some { p with context := [] })
  | _, slot => some (s.cache, slot)

/-- The context length of a row after this step. -/
def contextLen (continuity : Continuity) (slot : Option Previous) (delta : List Token) : ℕ :=
  match slot, continuity with
  | some p, .continuing => p.context.length + delta.length
  | _, _ => delta.length

/-- The slot of a row after its proposal, and the cache: a row that does not continue its slot
donates what the slot still holds. -/
def closeRow [F64] (s : HybridMixer) (cache : Cache) (continuity : Continuity)
    (slot : Option Previous) (delta : List Token) (estimate : Option ℚ) (budget : ℕ)
    (out : List Token × ℕ × Bool) : Option (Cache × Previous) := do
  let (draft, nativeCount, hadSuffix) := out
  let (acceptEstimate, suffixEstimate) : ℚ × Option ℚ := match slot, estimate with
    | some p, some _ => (p.acceptEstimate, p.suffixEstimate)
    | _, _ => (F64.ofNat s.initial, none)
  match slot with
  | some p =>
    let (cache, context) ← if continuity = .continuing then some (cache, p.context ++ delta)
      else (cache.add p.context).map fun c => (c, delta)
    some (cache, { p with
      context, native := nativeCount, length := draft.length, arm := budget,
      acceptEstimate, suffixEstimate, hadSuffix })
  | none =>
    some (cache, {
      context := delta, native := nativeCount, length := draft.length, arm := budget,
      acceptEstimate, suffixEstimate, hadSuffix, div := none })

/-- The row body of `mix_core` under the legacy split. -/
def legacyRow [F64] (s : HybridMixer) (decide : Decide) (i : ℕ) (id : ReqId) (native : List Token) :
    Option (List Token × HybridMixer) := do
  let slot := s.previous.lookup id
  let (continuity, delta) ← decide i (slot.map (·.context))
  let (cache, slot) ← s.takeReset continuity slot
  let freshRow := slot.isNone || continuity == .reset
  let cap := s.rowCap (contextLen continuity slot delta) native
  let estimate := if continuity = .continuing then slot.map (·.acceptEstimate) else none
  -- a cache that was never fed leaves the native draft at full width
  let budget := if cache.tokens > 0 then min (s.pick estimate) cap else cap
  let kept := keptPrefix (slot.isSome && continuity != .reset) budget cap
  let key ← lookupKey cache.cfg.depth continuity slot delta native kept
  let (suffix, _, _) ← cache.speculate key cap
  let out ← if suffix.isEmpty || freshRow then (sliceTo native cap).map fun d => (d, cap, false)
    else splice native suffix cap kept (slot.bind (·.suffixEstimate))
  let (cache, p) ← s.closeRow cache continuity slot delta estimate budget out
  some (out.1, { s with
    cache
    previous := s.previous.put id p
    nativeProposed := s.nativeProposed + out.2.1
    suffixProposed := s.suffixProposed + (out.1.length - out.2.1)
    lastNative := s.lastNative ++ [out.2.1]
    decisions := s.decisions + 1 })

/-! ## Rows of the divergence split -/

/-- `trust`: the probability that the suffix is right where the two sources disagree. -/
def trust [F64] (w : ℚ × ℚ) : ℚ :=
  F64.div (F64.add w.1 1) (F64.add (F64.add w.1 w.2) 2)

/-- Discount the evidence of a bucket and count the sources that were right. -/
def observe [F64] (w : ℚ × ℚ) (d : Divergence) (truth : Token) : ℚ × ℚ :=
  let discount := F64.round (999 / 1000)
  (F64.add (F64.mul w.1 discount) (if truth = d.suffixTok then 1 else 0),
    F64.add (F64.mul w.2 discount) (if truth = d.nativeTok then 1 else 0))

/-- Resolve the divergence of the last proposal against the verified token. -/
def resolve [F64] (s : HybridMixer) (div : Option Divergence) (accepted : ℤ) (delta : List Token) :
    Option HybridMixer :=
  match div with
  | none => some s
  | some d =>
    if accepted ≥ d.j ∧ delta.length > d.j then do
      let truth ← delta[d.j]?
      some { s with
        divWins := Function.update s.divWins d.bucket (observe (s.divWins d.bucket) d truth)
        divObserved := s.divObserved + 1 }
    else some s

/-- The slot of a diverge row with its new context. -/
def openRow [F64] (s : HybridMixer) (continuity : Continuity) (slot : Option Previous)
    (delta : List Token) (accepted : ℤ) : Option (HybridMixer × Previous) :=
  match slot with
  | some p =>
    if continuity = .continuing then do
      let s ← s.resolve p.div accepted delta
      some (s, { p with context := p.context ++ delta, div := none })
    else do
      let cache ← s.cache.add p.context
      some ({ s with cache }, { p with context := delta, div := none })
  | none =>
    some (s, {
      context := delta, native := 0, length := 0, arm := 0,
      acceptEstimate := F64.ofNat s.initial, suffixEstimate := none, hadSuffix := false,
      div := none })

/-- The suffix candidate of a diverge row: the global cache, or the in-request n-gram lookup where
that reaches further. -/
def candidate [F64] (s : HybridMixer) (ctx : List Token) (cap : ℕ) :
    Option (List Token × ℕ × Bool) := do
  let (cand, _, matched) ← s.cache.speculate ctx cap
  if cand.length < cap ∧ s.env.selfHi ≥ s.env.selfLo then do
    let (toks, score) ← Engine.ngram ctx s.env.selfLo s.env.selfHi cap s.env.selfWindow
    let order := F64.roundUsize (F64.div score (F64.sub 1 score))
    if toks.length > cand.length ∨ (!toks.isEmpty ∧ order > matched) then
      some (toks.take cap, order, true)
    else some (cand.take cap, matched, false)
  else some (cand.take cap, matched, false)

/-- The first position where the candidate disagrees with the native draft. -/
def firstDiff : List Token → List Token → ℕ → Option (Option ℕ)
  | [], _, _ => some none
  | _ :: _, [], _ => none
  | c :: cand, n :: native, t => if c ≠ n then some (some t) else firstDiff cand native (t + 1)

/-- `draft[..cand.len()].copy_from_slice(&cand)`. -/
def overlay (draft cand : List Token) : Option (List Token) :=
  if cand.length ≤ draft.length then some (cand ++ draft.drop cand.length) else none

/-- The draft of a diverge row, its native count, its divergence, and whether the candidate is laid
over the native draft. -/
def arbitrate [F64] (s : HybridMixer) (native cand : List Token) (bucket : Fin divBuckets) (cap : ℕ) :
    Option (List Token × ℕ × Option Divergence × Bool) := do
  let draft ← sliceTo native cap
  match ← firstDiff cand native 0 with
  | none => some (draft, cap, none, false)
  | some j => do
    let suffixTok ← cand[j]?
    let nativeTok ← native[j]?
    let div := some { j, suffixTok, nativeTok, bucket }
    if trust (s.divWins bucket) > s.env.divThreshold then
      (overlay draft cand).map fun draft => (draft, j, div, true)
    else some (draft, cap, div, false)

/-- `diverge_row`, with the bookkeeping of its caller. -/
def divergeRow [F64] (s : HybridMixer) (decide : Decide) (i : ℕ) (id : ReqId) (native : List Token)
    (accepted : ℤ) : Option (List Token × HybridMixer) := do
  let slot := s.previous.lookup id
  let (continuity, delta) ← decide i (slot.map (·.context))
  let (s, p) ← s.openRow continuity slot delta accepted
  let cap := s.rowCap p.context.length native
  let (cand, matched, selfLookup) ← s.candidate p.context cap
  let (draft, nativeCount, div, overlaid) ←
    s.arbitrate native cand (divBucket selfLookup matched) cap
  some (draft, { s with
    previous := s.previous.put id { p with
      native := nativeCount, length := draft.length, arm := cap,
      hadSuffix := Decidable.decide (nativeCount < cap), div }
    selfHits := s.selfHits + if selfLookup then 1 else 0
    divSuffixPublished := s.divSuffixPublished + if overlaid then 1 else 0
    suffixProposed := s.suffixProposed + if overlaid then cand.length - nativeCount else 0
    nativeProposed := s.nativeProposed + nativeCount
    lastNative := s.lastNative ++ [nativeCount]
    decisions := s.decisions + 1 })

/-! ## The call -/

/-- One round of the row loop of `mix_core`. -/
def row [F64] (s : HybridMixer) (decide : Decide) (accepted : Option (List ℤ)) (i : ℕ) (id : ReqId)
    (native : List Token) : Option (List Token × HybridMixer) :=
  if s.env.diverge then do
    let a ← match accepted with
      | none => some (-1)
      | some feedback => feedback[i]?
    s.divergeRow decide i id native a
  else s.legacyRow decide i id native

/-- The row loop of `mix_core`, from row `i` on. -/
def rows [F64] (decide : Decide) (accepted : Option (List ℤ)) :
    ℕ → List (ReqId × List Token) → HybridMixer → Option (List (List Token) × HybridMixer)
  | _, [], s => some ([], s)
  | i, (id, native) :: rest, s => do
    let (draft, s) ← s.row decide accepted i id native
    let (drafts, s) ← rows decide accepted (i + 1) rest s
    some (draft :: drafts, s)

/-- `mix_core`. -/
def mixCore [F64] (o : HashOrder ReqId) (s : HybridMixer) (ids : List ReqId)
    (natives : List (List Token)) (accepted : Option (List ℤ)) (decide : Decide) :
    Option (List (List Token) × HybridMixer) := do
  let s ← (s.feedback ids accepted).depart o ids
  let (drafts, s) ← rows decide accepted 0 (ids.zip natives) { s with lastNative := [] }
  some (drafts, { s with calls := s.calls + 1 })

/-- The error of a batch with wrong dimensions, ids, tokens or budget. -/
def invalidBatch : PyErr :=
  .valueError "invalid hybrid batch dimensions, IDs, token IDs or budget"

/-- The feedback of a row is below `-1` or exceeds the last proposal. -/
def badFeedback (s : HybridMixer) (id : ReqId) (accepted : ℤ) : Bool :=
  accepted < -1 || (s.previous.lookup id).any fun p => accepted > p.length

/-- `validate`. -/
def validate (s : HybridMixer) (ids : List ReqId) (natives : List (List Token))
    (accepted : Option (List ℤ)) : Except PyErr Unit :=
  let n := ids.length
  if n > 4096 ∨ natives.length ≠ n ∨ (accepted.any fun v => v.length ≠ n) ∨ ids.dedup.length ≠ n ∨
      natives.any fun d => d.length > s.k || d.any (· < 0) then
    .error invalidBatch
  else
    match accepted with
    | none => .ok ()
    | some feedback =>
      if (ids.zip feedback).any fun (id, a) => s.badFeedback id a then
        .error (.valueError "accepted length exceeds previous proposal")
      else .ok ()

/-- The outcome of a call: the drafts or an exception, and the mixer it leaves. -/
abbrev Outcome := Except PyErr (List (List Token)) × HybridMixer

/-- `HybridMixer::mix`. -/
def mix [F64] (o : HashOrder ReqId) (s : HybridMixer) (ids : List ReqId)
    (contexts : List (List Token)) (natives : List (List Token)) (accepted : Option (List ℤ)) :
    Option Outcome :=
  match s.validate ids natives accepted with
  | .error e => some (.error e, s)
  | .ok () =>
    if contexts.length ≠ ids.length ∨ contexts.any fun c => c.length > s.maxModelLen then
      some (.error invalidBatch, s)
    else
      (s.mixCore o ids natives accepted (decideContexts contexts)).map fun (drafts, s) =>
        (.ok drafts, s)

end HybridMixer

/-! ## NumPy arguments -/

/-- The `num_tokens_no_spec` argument: a one-dimensional array, or something else. -/
inductive CountArray where
  | i64 (counts : List ℤ)
  | i32 (counts : List ℤ)
  | other

/-- A matrix of tokens. -/
structure Grid where
  ncols : ℕ
  rows : List (List Token)
  rect : ∀ r ∈ rows, r.length = ncols

/-- The `token_ids_cpu` argument: a two-dimensional array, or something else. -/
inductive TokenArray where
  | i64 (contiguous : Bool) (grid : Grid)
  | i32 (grid : Grid)
  | other

/-- The counts of the first `n` rows. A contiguous `int64` view is read in place, the other arrays
are copied; the values are the same. -/
def CountArray.read (n : ℕ) : CountArray → Except PyErr (List ℤ)
  | .i64 counts | .i32 counts =>
    if counts.length < n then .error (.valueError "missing counts") else .ok (counts.take n)
  | .other => .error (.valueError "counts must be int32/int64 NumPy")

/-- The row bounds hold. -/
def Grid.fits (grid : Grid) (maxModelLen n : ℕ) (counts : List ℤ) : Bool :=
  !(grid.rows.length < n ||
    counts.any fun c => c < 0 || c.toNat > grid.ncols || c.toNat > maxModelLen)

/-- The classifier of a token array whose row bounds hold. -/
def TokenArray.decide (maxModelLen n : ℕ) (counts : List ℤ) : TokenArray → Except PyErr Decide
  | .i64 contiguous grid =>
    if grid.fits maxModelLen n counts then
      .ok (if contiguous then decideFlat grid.rows.flatten grid.ncols counts
        else decideRows grid.rows counts)
    else .error (.valueError "invalid row bounds")
  | .i32 grid =>
    if grid.fits maxModelLen n counts then .ok (decideRows grid.rows counts)
    else .error (.valueError "invalid row bounds")
  | .other => .error (.valueError "tokens must be int32/int64 NumPy")

namespace HybridMixer

/-- The argument checks of `mix_numpy` in their order, with the classifier they end in. -/
def numpyDecide (s : HybridMixer) (ids : List ReqId) (counts : CountArray) (tokens : TokenArray)
    (natives : List (List Token)) (accepted : Option (List ℤ)) : Except PyErr Decide := do
  s.validate ids natives accepted
  let counts ← counts.read ids.length
  tokens.decide s.maxModelLen ids.length counts

/-- `HybridMixer::mix_numpy`. -/
def mixNumpy [F64] (o : HashOrder ReqId) (s : HybridMixer) (ids : List ReqId) (counts : CountArray)
    (tokens : TokenArray) (natives : List (List Token)) (accepted : Option (List ℤ)) :
    Option Outcome :=
  match s.numpyDecide ids counts tokens natives accepted with
  | .error e => some (.error e, s)
  | .ok decide =>
    (s.mixCore o ids natives accepted decide).map fun (drafts, s) => (.ok drafts, s)

end HybridMixer
end SuffixHybrid
