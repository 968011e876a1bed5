import Mathlib.Data.Prod.Lex
import SuffixHybrid.Lib.Float
import SuffixHybrid.Lib.Index
import SuffixHybrid.Lib.Run
import SuffixHybrid.Lib.Slice

/-!
# The suffix cache

The suffix cache of `src/lib.rs`: finished token sequences in first-in-first-out order, indexed by
the n-grams that occur in them. `Cache.add` evicts the oldest sequences until the new one fits the
budgets and then posts its n-grams; `Cache.speculate` looks up the last n-gram of a context, keeps
the occurrences with the longest match to the left and follows their most frequent continuation.

A result `none` stands for a panic: a slice or an index out of bounds, a missing key, an unsigned
underflow, or a loop that cannot end. Tokens are `i64` values that are only compared, sequence ids
are `u64` values that count up from 0 and do not wrap.
-/

namespace SuffixHybrid
open Lib

/-- A token id. -/
abbrev Token := ℤ

/-- The settings of a cache. The lower bounds are those the environment variables are clamped to. -/
structure Config where
  n : ℕ
  depth : ℕ
  sequences : ℕ
  tokens : ℕ
  positions : ℕ
  candidates : ℕ
  support : ℕ
  factor : ℚ
  offset : ℚ
  prompts : Bool
  n_pos : 0 < n := by decide
  positions_pos : 0 < positions := by decide
  deriving DecidableEq

/-- `Config::default` with no environment variable set. -/
def Config.default : Config where
  n := 8
  depth := 64
  sequences := 512
  tokens := 1048576
  positions := 64
  candidates := 32
  support := 1
  factor := 1
  offset := 0
  prompts := false

/-- The default settings with n-grams of another length. -/
def Config.ofN (n : ℕ) (hn : 0 < n) : Config := { Config.default with n, n_pos := hn }

/-- The cache: live sequences by id, their order of arrival, and the n-gram index, whose entries
are pairs of a sequence id and a start position. -/
structure Cache where
  cfg : Config
  sequences : Map ℕ (List Token)
  fifo : List ℕ
  index : Map (List Token) (List (ℕ × ℕ))
  next : ℕ
  tokens : ℕ
  deriving DecidableEq

namespace Cache

/-- `Cache::new`. -/
def new (cfg : Config) : Cache := ⟨cfg, ∅, [], ∅, 0, 0⟩

/-- Remove the oldest sequence and every index entry that points into it. -/
def evict (c : Cache) : Option Cache :=
  match c.fifo with
  | [] => some c
  | id :: fifo => do
    let seq ← c.sequences.lookup id
    let tokens ← checkedSub c.tokens seq.length
    some { c with
      fifo
      sequences := c.sequences.erase id
      tokens
      index := (windows c.cfg.n seq).foldl (purge fun e => e.1 == id) c.index }

/-- The budgets leave no room for `len` more tokens. -/
def Full (c : Cache) (len : ℕ) : Prop :=
  c.cfg.sequences ≤ c.fifo.length ∨ c.cfg.tokens < c.tokens + len

instance (c : Cache) (len : ℕ) : Decidable (c.Full len) := inferInstanceAs (Decidable (_ ∨ _))

/-- The eviction loop of `add`. Every round takes one id off `fifo`, so the length of `fifo` bounds
the rounds; with an empty `fifo` the loop of the source would not end. -/
def makeRoom (len : ℕ) : ℕ → Cache → Option Cache
  | 0, c => if c.Full len then none else some c
  | rounds + 1, c => if c.Full len then c.evict.bind (makeRoom len rounds) else some c

/-- The index entries of a sequence: its n-grams with their positions. -/
def grams (n id : ℕ) (tokens : List Token) : List (List Token × (ℕ × ℕ)) :=
  (windows n tokens).zipIdx.map fun (key, pos) => (key, (id, pos))

/-- The last part of `add`: index the sequence and append it. -/
def push (c : Cache) (tokens : List Token) : Cache :=
  let id := c.next
  { c with
    next := c.next + 1
    index := (grams c.cfg.n id tokens).foldl (post c.cfg.positions) c.index
    tokens := c.tokens + tokens.length
    sequences := c.sequences.put id tokens
    fifo := c.fifo ++ [id] }

/-- The part of an input that a cache retains: its last `cfg.tokens` tokens. -/
def truncate (cfg : Config) (tokens : List Token) : List Token :=
  if tokens.length > cfg.tokens then tokens.drop (tokens.length - cfg.tokens) else tokens

/-- `Cache::add`. -/
def add (c : Cache) (tokens : List Token) : Option Cache :=
  if c.cfg.sequences = 0 ∨ c.cfg.tokens ≤ c.cfg.n then some c
  else
    let tokens := truncate c.cfg tokens
    if tokens.length ≤ c.cfg.n then some c
    else (makeRoom tokens.length c.fifo.length c).map fun c => c.push tokens

/-- How far an occurrence that ends at `e` matches the window, from `matched` on. The first argument
counts the window tokens that are left. -/
def extendMatch (seq window : List Token) (e : ℕ) : ℕ → ℕ → Option ℕ
  | 0, matched => some matched
  | left + 1, matched =>
    if matched < e then do
      let a ← seq[e - matched - 1]?
      let b ← window[window.length - matched - 1]?
      if a = b then extendMatch seq window e left (matched + 1) else some matched
    else some matched

/-- A match replaces shorter ones and joins those of its own length. -/
def keepBest (matched : ℕ) (e : ℕ × ℕ) (acc : ℕ × List (ℕ × ℕ)) : ℕ × List (ℕ × ℕ) :=
  let (best, ends) := if matched > acc.1 then (matched, []) else acc
  (best, if matched = best then ends ++ [e] else ends)

/-- The candidate loop of `speculate`: the best match length and the ends of the occurrences that
reach it. -/
def bestEnds (c : Cache) (window : List Token) :
    List (ℕ × ℕ) → ℕ × List (ℕ × ℕ) → Option (ℕ × List (ℕ × ℕ))
  | [], acc => some acc
  | (id, pos) :: rest, acc => do
    let seq ← c.sequences.lookup id
    let matched ← extendMatch seq window (pos + c.cfg.n) (window.length - c.cfg.n) c.cfg.n
    c.bestEnds window rest (keepBest matched (id, pos + c.cfg.n) acc)

/-- The token `step` places after an end, if the sequence reaches that far. -/
def tokenAt (c : Cache) (step : ℕ) (e : ℕ × ℕ) : Option (Option Token) :=
  (c.sequences.lookup e.1).map fun seq => seq[e.2 + step]?

/-- Count one more occurrence of a token and remember its latest end. -/
def countUp (e : ℕ × ℕ) (item : ℕ × ℕ × ℕ) : ℕ × ℕ × ℕ :=
  (item.1 + 1, if toLex e > toLex item.2 then e else item.2)

/-- Count the tokens that follow the ends: support and latest end of each. -/
def tally (c : Cache) (step : ℕ) :
    List (ℕ × ℕ) → Map Token (ℕ × ℕ × ℕ) → Option (Map Token (ℕ × ℕ × ℕ))
  | [], counts => some counts
  | e :: ends, counts => do
    match ← c.tokenAt step e with
    | none => c.tally step ends counts
    | some tok => c.tally step ends (counts.put tok (countUp e ((counts.lookup tok).getD (0, e))))

/-- The order of the counted tokens: by support, then by latest end, then by token id. -/
def ranksBelow (a b : Sigma fun _ : Token => ℕ × ℕ × ℕ) : Bool :=
  a.2.1 < b.2.1 || a.2.1 = b.2.1 &&
    (a.2.2.1 < b.2.2.1 || a.2.2.1 = b.2.2.1 &&
      (a.2.2.2 < b.2.2.2 || a.2.2.2 = b.2.2.2 && a.1 < b.1))

/-- The most frequent token. The tokens differ, so the order in which the counts are visited does
not matter. -/
def topCount (counts : Map Token (ℕ × ℕ × ℕ)) : Option (Token × ℕ) :=
  (counts.entries.foldl (fun best e => if best.all (ranksBelow · e) then some e else best)
    none).map fun e => (e.1, e.2.1)

/-- The ends that a token follows. -/
def retain (c : Cache) (step : ℕ) (tok : Token) : List (ℕ × ℕ) → Option (List (ℕ × ℕ))
  | [] => some []
  | e :: ends => do
    let t ← c.tokenAt step e
    let ends ← c.retain step tok ends
    some (if t = some tok then e :: ends else ends)

/-- The continuation loop of `speculate`: the tokens of the remaining steps and the score. -/
def follow [F64] (c : Cache) : ℕ → ℕ → List (ℕ × ℕ) → ℚ → Option (List Token × ℚ)
  | 0, _, _, score => some ([], score)
  | left + 1, step, ends, score => do
    match topCount (← c.tally step ends ∅) with
    | none => some ([], score)
    | some (tok, support) =>
      if support < c.cfg.support then some ([], score)
      else do
        let score := F64.mul score (F64.div (F64.ofNat support) (F64.ofNat ends.length))
        let (rest, score) ← c.follow left (step + 1) (← c.retain step tok ends) score
        some (tok :: rest, score)

/-- The length limit of a continuation after a match of length `best`. -/
def specCap [F64] (cfg : Config) (maxTokens best : ℕ) : ℕ :=
  min maxTokens
    (F64.toUsize (max 0 (F64.add (F64.mul cfg.factor (F64.ofNat best)) cfg.offset)))

/-- `Cache::speculate`: the continuation, its score and the match length. -/
def speculate [F64] (c : Cache) (context : List Token) (maxTokens : ℕ) :
    Option (List Token × ℚ × ℕ) := do
  let window ← sliceFrom context (context.length - c.cfg.depth)
  if maxTokens = 0 ∨ window.length < c.cfg.n then some ([], 0, 0)
  else
    let key ← sliceFrom window (window.length - c.cfg.n)
    match c.index.lookup key with
    | none => some ([], 0, 0)
    | some bucket => do
      let (best, ends) ← c.bestEnds window (bucket.reverse.take c.cfg.candidates) (0, [])
      let (result, score) ← c.follow (specCap c.cfg maxTokens best) 0 ends 1
      some (result, if result.isEmpty then 0 else score, best)

end Cache

/-- `SuffixCache::add_prompt`: prompts are indexed only when the configuration says so. -/
def Cache.addPrompt (c : Cache) (tokens : List Token) : Option Cache :=
  if c.cfg.prompts then c.add tokens else some c

end SuffixHybrid
