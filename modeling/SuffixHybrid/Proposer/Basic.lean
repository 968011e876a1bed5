import SuffixHybrid.Cache.Speculate
import SuffixHybrid.Mixer.Basic

/-!
# The suffix-only proposer

`V2SuffixProposer` of `src/mixer.rs`: drafts without a native drafter. For every request it mirrors the
token history and remembers the width it last published; with the width gate it also keeps an estimate
of the accepted tokens. A call donates the mirrors of the requests that left (`depart`) and then runs its
rows (`rows`): each checks its bounds, extends its mirror and publishes the continuation that the cache
knows (`row`).

The checks stand inside the row loop, so a call that raises may have done a part of its work: an
exception comes with the state in which the call leaves the proposer. A panic of the body is caught by
`guard_py` and is an exception too. Only a panic of the cache is `none`. The clock is left out.
-/

namespace SuffixHybrid
open Lib

/-- What `guard_py` raises: the exception of its body, or a `RuntimeError` in place of a panic. -/
inductive Raised where
  | raised (e : PyErr)
  | panicked
  deriving DecidableEq

/-- The gate of a request: its estimate of accepted draft tokens, and the width it last published. -/
structure GateRow where
  ewma : ℚ
  lastWidth : ℕ
  deriving DecidableEq

/-- The draft of a row, its published width, and the width of the suffix in it. -/
structure SuffixRowOut where
  tokens : List Token
  width : ℕ
  realW : ℕ
  deriving DecidableEq

/-- The state of a suffix-only proposer. -/
structure V2SuffixProposer where
  cache : Cache
  mirror : Map ReqId (List Token)
  widths : Map ReqId ℕ
  k : ℕ
  maxModelLen : ℕ
  minLen : ℕ
  uniformK : Bool
  steps : ℕ
  hits : ℕ
  hitTokens : ℕ
  ingested : ℕ
  resets : ℕ
  padded : ℕ
  widthGate : Bool
  gate : Map ReqId GateRow
  k_pos : 0 < k

namespace V2SuffixProposer

/-- A proposer that has seen nothing. -/
def empty (cfg : Config) (k maxModelLen minLen : ℕ) (uniformK widthGate : Bool) (hk : 0 < k) :
    V2SuffixProposer where
  cache := Cache.new cfg
  mirror := ∅
  widths := ∅
  k
  maxModelLen
  minLen := max minLen 1
  uniformK
  steps := 0
  hits := 0
  hitTokens := 0
  ingested := 0
  resets := 0
  padded := 0
  widthGate
  gate := ∅
  k_pos := hk

lemma pos_of_args {k maxModelLen : ℕ}
    (h : (1 ≤ k ∧ k ≤ 64) ∧ 1 ≤ maxModelLen ∧ maxModelLen ≤ 16777216) : 0 < k := h.1.1

/-- `V2SuffixProposer::new`. -/
def new (cfg : Config) (k maxModelLen minLen : ℕ) (uniformK widthGate : Bool) :
    Except PyErr V2SuffixProposer :=
  if h : (1 ≤ k ∧ k ≤ 64) ∧ 1 ≤ maxModelLen ∧ maxModelLen ≤ 16777216 then
    .ok (empty cfg k maxModelLen minLen uniformK widthGate (pos_of_args h))
  else .error (.valueError "suffix-only k must be 1..64 and context 1..16777216")

/-! ## Departures -/

/-- The mirrored requests that are not in the batch, in the order of the hash map. -/
def gone (o : HashOrder ReqId) (s : V2SuffixProposer) (ids : List ReqId) : List ReqId :=
  (o.order s.mirror.keys).filter (· ∉ ids)

/-- A departed request leaves the tables, and donates its mirror if it is long enough. -/
def departRow (s : V2SuffixProposer) (rid : ReqId) : Option V2SuffixProposer :=
  match s.mirror.lookup rid with
  | none => some s
  | some row =>
    let s := { s with
      mirror := s.mirror.erase rid
      widths := s.widths.erase rid
      gate := s.gate.erase rid }
    -- a short mirror is dropped with its request
    if row.length > 8 then
      (s.cache.add row).map fun cache => { s with cache, ingested := s.ingested + 1 }
    else some s

/-- The departure loop of `run`. -/
def depart (o : HashOrder ReqId) (s : V2SuffixProposer) (ids : List ReqId) :
    Option V2SuffixProposer :=
  Lib.run departRow s (s.gone o ids)

/-! ## Rows -/

/-- The boundary proof: the mirror fits the row and agrees with it on its first and on its last 64
tokens. -/
def continues (total : ℕ) (row t : List Token) : Bool :=
  if total ≥ t.length then
    let l := t.length
    -- the two windows overlap for a mirror of less than 128 tokens
    let w := min 64 l
    (((t.take w).zip (row.take w)).all fun (a, b) => a == b) &&
      (((t.drop (l - w)).zip ((row.drop (l - w)).take w)).all fun (a, b) => a == b)
  else false

/-- The row continues the mirror of its request. -/
def cont (s : V2SuffixProposer) (rid : ReqId) (total : ℕ) (row : List Token) : Bool :=
  (s.mirror.lookup rid).any (continues total row)

/-- The mirror of a request after its row. -/
def mirrored (s : V2SuffixProposer) (rid : ReqId) (total : ℕ) (row : List Token) : List Token :=
  match s.mirror.lookup rid with
  | some t =>
    if s.cont rid total row then t ++ (row.drop t.length).take (total - t.length)
    else row.take total
  | none => row.take total

/-- The suffix that a row may publish. -/
def found (s : V2SuffixProposer) (suffix : List Token) : List Token :=
  if suffix ≠ [] ∧ suffix.length ≥ s.minLen then suffix.take (min suffix.length s.k) else []

/-! ## The width gate -/

/-- Feedback for a gate: what the mirror grew by, less the sampled token, was accepted of the width that
the gate last published. -/
def train [F64] (cont : Bool) (trackedLen : Option ℕ) (total : ℕ) (g : GateRow) : GateRow :=
  if cont = true ∧ g.lastWidth > 0 then
    match trackedLen with
    | none => g
    | some lPrev =>
      let delta := total - lPrev
      -- a step that sampled nothing is no evidence
      if delta ≥ 1 then
        -- a full acceptance says nothing about the tokens behind the gate, so the estimate creeps up by one
        let a := min (delta - 1) g.lastWidth
        { g with
          ewma := if a ≥ g.lastWidth then F64.ofNat (g.lastWidth + 1)
            else HybridMixer.ewma g.ewma (F64.ofNat a) }
      else g
  else g

/-- The gate of a request after the feedback of its row. -/
def trained [F64] (s : V2SuffixProposer) (rid : ReqId) (total : ℕ) (row : List Token) :
    Option GateRow :=
  (s.gate.lookup rid).map
    (train (s.cont rid total row) ((s.mirror.lookup rid).map List.length) total)

/-- The widest suffix that a gate lets through. A request without a gate keeps its width. -/
def gateWidth (s : V2SuffixProposer) (g : Option GateRow) : ℕ :=
  match g with
  | none => s.k
  | some g => max 1 (min (F64.ceilUsize g.ewma) s.k)

/-- The suffix that a row publishes. -/
def narrowed (s : V2SuffixProposer) (g : Option GateRow) (suffix : List Token) : List Token :=
  if s.widthGate = true ∧ s.gateWidth g < suffix.length then suffix.take (s.gateWidth g) else suffix

/-- The gate of a request after its row has published `realW` tokens. -/
def recorded [F64] (s : V2SuffixProposer) (g : Option GateRow) (realW : ℕ) : GateRow where
  ewma := (g.map (·.ewma)).getD (F64.ofNat s.k)
  lastWidth := if s.uniformK then s.k else realW

/-! ## The row loop -/

/-- The draft of a row: under the uniform mode it is padded to full width with the first token of the
mirror. -/
def publish (s : V2SuffixProposer) (pad : Token) (suffix : List Token) : SuffixRowOut :=
  if s.uniformK then
    { tokens := suffix ++ List.replicate (s.k - suffix.length) pad, width := s.k,
      realW := suffix.length }
  else { tokens := suffix, width := suffix.length, realW := suffix.length }

/-- The body of a row whose bounds hold. -/
def row [F64] (s : V2SuffixProposer) (rid : ReqId) (total : ℕ) (row : List Token) :
    Option (SuffixRowOut × V2SuffixProposer) := do
  let tokensRow := s.mirrored rid total row
  let (suffix, _, _) ← s.cache.speculate tokensRow s.k
  let g := s.trained rid total row
  let tokens := s.narrowed g (s.found suffix)
  let out := s.publish (tokensRow.headD 0) tokens
  some (out, { s with
    mirror := s.mirror.put rid tokensRow
    resets := s.resets + if (s.mirror.lookup rid).isSome && !s.cont rid total row then 1 else 0
    gate := if s.widthGate then s.gate.put rid (s.recorded g tokens.length) else s.gate
    hits := s.hits + if out.realW > 0 then 1 else 0
    hitTokens := s.hitTokens + out.realW
    widths := s.widths.put rid out.width })

/-- A request of a batch: its id, its row in the token buffer and its length. -/
structure Entry where
  rid : ReqId
  index : ℕ
  total : ℤ
  deriving DecidableEq

/-- The bounds check of a row. -/
def outOfBounds (s : V2SuffixProposer) (tokens : Grid) (e : Entry) : Bool :=
  e.total < 0 || e.total.toNat > tokens.ncols || e.total.toNat > s.maxModelLen

/-- The row loop of `run`. -/
def rows [F64] (tokens : Grid) :
    List Entry → V2SuffixProposer → Option (Except Raised (List SuffixRowOut) × V2SuffixProposer)
  | [], s => some (.ok [], s)
  | e :: rest, s =>
    if s.outOfBounds tokens e then
      some (.error (.raised (.valueError "suffix-only row bounds")), s)
    else
      match tokens.rows[e.index]? with
      -- the index is not checked before the row is read
      | none => some (.error .panicked, s)
      | some buffer => do
        let (out, s) ← s.row e.rid e.total.toNat buffer
        let (outs, s) ← rows tokens rest s
        some (outs.map fun outs => out :: outs, s)

/-! ## The call -/

/-- The requests of a batch. -/
def entries (ids : List ReqId) (indices : List ℕ) (totals : List ℤ) : List Entry :=
  (ids.zip (indices.zip totals)).map fun (rid, index, total) => { rid, index, total }

/-- `V2SuffixProposer::run`. -/
def run [F64] (o : HashOrder ReqId) (s : V2SuffixProposer) (ids : List ReqId) (indices : List ℕ)
    (tokens : Grid) (totals : List ℤ) :
    Option (Except Raised (List SuffixRowOut) × V2SuffixProposer) :=
  if indices.length < ids.length then
    some (.error (.raised (.valueError "suffix-only batch dimension mismatch")), s)
  else do
    let s ← s.depart o ids
    let (outs, s) ← rows tokens (entries ids indices totals) s
    match outs with
    -- the rows before the bad one have had their effect
    | .error e => some (.error e, s)
    | .ok outs =>
      some (.ok outs, { s with
        steps := s.steps + 1
        padded := s.padded + outs.countP fun out => s.uniformK && out.realW < out.width })

/-- The row of the packed draft matrix. -/
def pack (k : ℕ) (out : SuffixRowOut) : List Token :=
  out.tokens.take k ++ List.replicate (k - out.tokens.length) 0

/-- The packed drafts and their widths. -/
structure Packed where
  drafts : List (List Token)
  widths : List ℕ
  deriving DecidableEq

/-- The arguments of a batch call. The indices and the totals are `none` where they do not convert to
`int64` vectors. -/
structure Batch where
  o : HashOrder ReqId
  requestIds : List ReqId
  indices : Option (List ℤ)
  totals : Option (List ℤ)
  tokens : TokenArray

/-- The argument checks of `propose_suffix_only`, in their order, with the arguments of `run`. -/
def Batch.read (b : Batch) : Except PyErr (List ℕ × Grid × List ℤ) :=
  match b.totals with
  | none => .error (.valueError "totals must be int64 1D NumPy")
  | some totals =>
    if totals.length < b.requestIds.length then
      .error (.valueError "totals shorter than request ids")
    else
      match b.indices with
      | none => .error (.valueError "indices must be ints")
      | some idx =>
        if idx.length < b.requestIds.length then
          .error (.valueError "indices shorter than request ids")
        else
          match b.tokens with
          -- a negative index becomes row zero
          | .i32 grid | .i64 _ grid => .ok (idx.map fun x => (max x 0).toNat, grid, totals)
          | .other => .error (.valueError "tokens must be int32/int64 2D NumPy")

/-- A batch of one request with the first tokens of a row. -/
def oneRow (total : ℤ) : Batch where
  o := HashOrder.stored ReqId
  requestIds := ["a"]
  indices := some [0]
  totals := some [total]
  tokens := .i64 true ⟨9, [[1, 2, 3, 4, 5, 6, 7, 8, 9]], by decide⟩

/-- The outcome of a call: the packed drafts or an exception, and the proposer it leaves. -/
abbrev Outcome := Except Raised Packed × V2SuffixProposer

/-- `V2SuffixProposer::propose_suffix_only`. -/
def proposeSuffixOnly [F64] (s : V2SuffixProposer) (b : Batch) : Option Outcome :=
  match b.read with
  | .error e => some (.error (.raised e), s)
  | .ok (indices, tokens, totals) =>
    (s.run b.o b.requestIds indices tokens totals).map fun (outs, s) =>
      (outs.map fun outs => { drafts := outs.map (pack s.k), widths := outs.map (·.width) }, s)

/-- One round of `clear_widths`. -/
def clearWidth (s : V2SuffixProposer) (rid : ReqId) : V2SuffixProposer :=
  { s with
    widths := s.widths.put rid 0
    gate := match s.gate.lookup rid with
      | some g => s.gate.put rid { g with lastWidth := 0 }
      | none => s.gate }

/-- `V2SuffixProposer::clear_widths`. -/
def clearWidths (s : V2SuffixProposer) : V2SuffixProposer := s.widths.keys.foldl clearWidth s

/-- An operation on a proposer or on its shared cache. -/
inductive Op where
  | propose (b : Batch)
  | clearWidths
  | addSequence (tokens : List Token)
  | addPrompt (tokens : List Token)

/-- The proposer after an operation. -/
def op [F64] (s : V2SuffixProposer) : Op → Option V2SuffixProposer
  | .propose b => (s.proposeSuffixOnly b).map Prod.snd
  | .clearWidths => some s.clearWidths
  | .addSequence tokens => (s.cache.add tokens).map fun cache => { s with cache }
  | .addPrompt tokens => (s.cache.addPrompt tokens).map fun cache => { s with cache }

/-- The proposers that operations lead to from a new one. -/
def Reachable [F64] (s : V2SuffixProposer) : Prop :=
  ∃ cfg k maxModelLen minLen uniformK widthGate s0 ops,
    V2SuffixProposer.new cfg k maxModelLen minLen uniformK widthGate = .ok s0 ∧
      Lib.run op s0 ops = some s

end V2SuffixProposer
end SuffixHybrid
