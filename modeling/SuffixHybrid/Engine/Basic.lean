import SuffixHybrid.Mixer.Basic

/-!
# The suffix engine

`Engine` of `src/engine.rs`: the proposer without native drafts. It keeps the contexts of the last
batch, without identities. A call matches the rows of the new batch with them (`matched`), by position
first and by search after that; what no row takes is donated to the cache. Then every row gets the
continuation of its context, from the cache or from the n-gram lookup (`draft`).

As in the cache, a result `none` is a panic. The clocks and the logging intervals are left out.
-/

namespace SuffixHybrid
open Lib

/-- The settings read from the environment when an engine is made. -/
structure EngineEnv where
  maxSpecTokens : ℕ := 0
  maxActiveRows : ℕ := 4096
  ngramMin : ℕ := 4
  ngramMax : ℕ := 16
  ngramWindow : ℕ := 0
  useNgram : Bool := true

/-- The state of an engine. -/
structure Engine where
  cache : Cache
  rows : List (List Token)
  k : ℕ
  maxModelLen : ℕ
  maxRows : ℕ
  ngramMin : ℕ
  ngramMax : ℕ
  ngramWindow : ℕ
  useNgram : Bool
  calls : ℕ
  proposed : ℕ
  suffixProposals : ℕ
  ngramProposals : ℕ
  matchSum : ℕ

namespace Engine

/-- `Engine::new`. -/
def new (cfg : Config) (env : EngineEnv) (numSpeculativeTokens maxModelLen : ℕ) :
    Except PyErr Engine :=
  if maxModelLen = 0 ∨ maxModelLen > 16777216 then
    .error (.valueError "max_model_len must be in 1..16777216")
  else
    .ok {
      cache := Cache.new cfg
      rows := []
      k := if env.maxSpecTokens = 0 then min numSpeculativeTokens 4096 else env.maxSpecTokens
      maxModelLen
      maxRows := env.maxActiveRows
      ngramMin := env.ngramMin
      ngramMax := env.ngramMax
      ngramWindow := env.ngramWindow
      useNgram := env.useNgram
      calls := 0
      proposed := 0
      suffixProposals := 0
      ngramProposals := 0
      matchSum := 0 }

/-! ## Matching the rows -/

/-- `prefix_of_row`: a context that is not empty and agrees with the first `n` tokens of a row on its
first and on its last 64 tokens. -/
def prefixOfRow (n : ℕ) (row v : List Token) : Bool :=
  let m := v.length
  if m = 0 ∨ m > n then false
  else
    let w := min 64 m
    ((v.take w).zip (row.take w) ++ (v.drop (m - w)).zip ((row.drop (m - w)).take w)).all
      fun (a, b) => a == b

/-- The old contexts that no row has taken yet. -/
abbrev Pool := List (Option (List Token))

/-- The place of the old context that row `i` continues. -/
def matched (old : Pool) (i n : ℕ) (row : List Token) : Option ℕ :=
  if (old[i]?.join).any (prefixOfRow n row) then some i
  else old.findIdx? fun v => v.any (prefixOfRow n row)

/-- The pool after a row has taken its context. -/
def taken (old : Pool) : Option ℕ → Pool
  | none => old
  | some j => old.set j none

/-- The context of row `i`: the one it takes over, extended from the row. -/
def context (old : Pool) (i n : ℕ) (row : List Token) : Option (List Token) := do
  let context := ((matched old i n row).bind fun j => old[j]?.join).getD []
  let new ← checkedSub n context.length
  some (context ++ (row.drop context.length).take new)

/-- The matching loop, from row `i` on: the contexts of the rows, and the contexts that are left. -/
def track : ℕ → List (ℕ × List Token) → Pool → Option (List (List Token) × Pool)
  | _, [], old => some ([], old)
  | i, (n, row) :: rest, old => do
    let current ← context old i n row
    let (contexts, old) ← track (i + 1) rest (taken old (matched old i n row))
    some (current :: contexts, old)

/-! ## Drafts -/

/-- The n-gram lookup of a row, unless the draft of the cache dominates it. -/
def lookupNgram [F64] (e : Engine) (context suffix : List Token) (score : ℚ) (cap : ℕ) :
    Option (List Token × ℚ) :=
  let ngCeiling := F64.mul (F64.div (F64.ofNat e.ngramMax) (F64.ofNat (e.ngramMax + 1))) (F64.ofNat cap)
  let ngDominates := F64.mul score (F64.ofNat suffix.length) < ngCeiling
  if e.useNgram = true ∧ ngDominates then ngram context e.ngramMin e.ngramMax cap e.ngramWindow
  else some ([], 0)

/-- The draft of a row. -/
def draft [F64] (e : Engine) (context sampled : List Token) : Option (List Token × Engine) :=
  let cap := min e.k (e.maxModelLen - context.length)
  if sampled.isEmpty = true ∨ cap = 0 then some ([], e)
  else do
    let (suffix, score, matched) ← e.cache.speculate context cap
    let (ng, ngScore) ← e.lookupNgram context suffix score cap
    if !suffix.isEmpty ∧
        F64.mul score (F64.ofNat suffix.length) ≥ F64.mul ngScore (F64.ofNat ng.length) then
      some (suffix, { e with
        suffixProposals := e.suffixProposals + 1
        matchSum := e.matchSum + matched
        proposed := e.proposed + suffix.length })
    else
      some (ng, { e with
        ngramProposals := e.ngramProposals + if ng.isEmpty then 0 else 1
        proposed := e.proposed + ng.length })

/-- The draft loop. -/
def drafts [F64] : List (List Token × List Token) → Engine → Option (List (List Token) × Engine)
  | [], e => some ([], e)
  | (context, sampled) :: rest, e => do
    let (toks, e) ← e.draft context sampled
    let (result, e) ← drafts rest e
    some (toks :: result, e)

/-! ## The call -/

/-- The outcome of a call: the drafts or an exception, and the engine it leaves. -/
abbrev Outcome := Except PyErr (List (List Token)) × Engine

/-- The batch does not fit the buffers. -/
def badDimensions (e : Engine) (sampled : List (List Token)) (counts : List ℤ) (tokens : Grid) : Bool :=
  sampled.length > e.maxRows || counts.length < sampled.length || tokens.rows.length < sampled.length

/-- A count lies outside the buffer. -/
def badCount (e : Engine) (tokens : Grid) (n : ℤ) : Bool :=
  n < 0 || n.toNat > tokens.ncols || n.toNat > e.maxModelLen

/-- The rows of a batch with their counts. -/
def batch (size : ℕ) (counts : List ℤ) (tokens : Grid) : List (ℕ × List Token) :=
  ((counts.take size).map Int.toNat).zip tokens.rows

/-- `Engine::run`. -/
def run [F64] (e : Engine) (sampled : List (List Token)) (counts : List ℤ) (tokens : Grid) :
    Option Outcome :=
  let size := sampled.length
  if e.badDimensions sampled counts tokens then
    some (.error (.valueError "batch dimensions exceed buffers or MAX_ACTIVE_ROWS"), e)
  else if (counts.take size).any (e.badCount tokens) then
    some (.error (.valueError "num_tokens_no_spec outside buffer/max_model_len"), e)
  else do
    let (current, old) ← track 0 (batch size counts tokens) (e.rows.map some)
    let cache ← Lib.run Cache.add e.cache old.reduceOption
    let (result, e) ← drafts (current.zip sampled) { e with cache }
    some (.ok result, { e with rows := current, calls := e.calls + 1 })

/-- The `num_tokens_no_spec` argument of `propose`. Both types are read as `i64` values. -/
def readCounts : CountArray → Except PyErr (List ℤ)
  | .i32 counts | .i64 counts => .ok counts
  | .other => .error (.valueError "num_tokens_no_spec must be a 1D int32/int64 NumPy array")

/-- The `token_ids_cpu` argument of `propose`. -/
def readTokens : TokenArray → Except PyErr Grid
  | .i32 grid | .i64 _ grid => .ok grid
  | .other => .error (.valueError "token_ids_cpu must be a 2D int32/int64 NumPy array")

/-- `Engine::propose`. -/
def propose [F64] (e : Engine) (sampledTokenIds : List (List Token)) (numTokensNoSpec : CountArray)
    (tokenIdsCpu : TokenArray) : Option Outcome :=
  match readCounts numTokensNoSpec with
  | .error err => some (.error err, e)
  | .ok counts =>
    match readTokens tokenIdsCpu with
    | .error err => some (.error err, e)
    | .ok tokens => e.run sampledTokenIds counts tokens

end Engine
end SuffixHybrid
