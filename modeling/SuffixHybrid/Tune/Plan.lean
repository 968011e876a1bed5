import Mathlib
import SuffixHybrid.Lib.Run

/-!
# The plan and the step of the tuner on one rank

Rank 0 plans each micro-step: a rollback when the file is there, the next windows of an open
evaluation, a new evaluation, a training batch, or nothing. The step may be skipped for memory; the
last batch of an evaluation is followed by the decision and, it may be, the promotion. What the
program does to the adapters is kept in a log of `Event`s. The store, the memory, the sampling, the
optimizer and the clock are an `Env` of each step; the replay of a window and the arithmetic of the
gate are parameters.
-/

namespace SuffixHybrid.Tuner
open Lib

variable {W P F : Type}

/-! ## Data -/

/-- The configuration, with the functions of the gate and of the adapters: `anchors` and `accepted` of
the replay of a window, `mean` of an accepted sum over anchors, `serving` of the candidate, and the
zeroed adapters. -/
structure Config (W P F : Type) where
  evalEvery : ℤ
  evalWindows : ℤ
  minEvalWindows : ℤ
  minTrainWindows : ℤ
  accum : ℤ
  maxWindows : ℤ
  minAnchors : ℤ
  margin : F
  shadow : Bool
  hasRollbackFile : Bool
  recursionLimit : ℕ
  serving : P → P
  anchors : P → W → ℕ
  accepted : P → W → ℕ
  mean : ℕ → ℕ → F
  zeroed : P

/-- What a step meets: the alive windows of the store, which of the windows are alive, whether the
rollback file exists at each look, the memory, the sample, the stepped candidate, and the windows that
fit the target time. -/
structure Env (W P : Type) where
  held : { l : List W // l.Nodup }
  train : List W
  alive : W → Bool
  rollback : ℕ → Bool
  memOk : Bool
  sample : List W → ℕ → List W
  stepped : P
  fit : ℤ

/-- The tuner of rank 0 with its trainer and gate. The `Stats` of an adapter are its anchors and its
accepted sum. -/
structure State (W P : Type) where
  disabled : Bool
  rolledBack : Bool
  queue : List W
  evalStepsAt : ℕ
  micro : ℕ
  steps : ℕ
  windowsPerMicro : ℕ
  params : P
  live : P
  liveStats : ℕ × ℕ
  candStats : ℕ × ℕ
  promotions : ℕ

/-- What happens to the adapters and the gate. -/
inductive Event (W P F : Type) where
  | opened (queue : List W)
  | fedLive (p : P) (ws : List W)
  | fedCand (p : P) (ws : List W)
  | decided (n : ℕ) (gain : F) (ok : Bool)
  | promoted (p : P)
  | trained (ws : List W)
  | stepped (p : P)
  | rolledBack

/-- The op of a step. -/
inductive Plan (W : Type) where
  | none
  | rollback
  | train (ws : List W)
  | eval (ws : List W) (last : Bool)

/-- The tuner at the start. -/
def State.init (params live : P) : State W P where
  disabled := false
  rolledBack := false
  queue := []
  evalStepsAt := 0
  micro := 0
  steps := 0
  windowsPerMicro := 1
  params := params
  live := live
  liveStats := (0, 0)
  candStats := (0, 0)
  promotions := 0

/-! ## Planning -/

/-- `l[-k:]`. -/
def lastWindows (k : ℤ) (l : List W) : List W :=
  if 0 < k then l.drop (l.length - k.toNat) else l.drop (-k).toNat

/-- `_batch`: the windows that are still alive, no op when there are none. -/
def batch (e : Env W P) (recs : List W) (op : List W → Plan W) : Plan W :=
  match recs.filter e.alive with
  | [] => .none
  | w :: ws => op (w :: ws)

/-- An evaluation is due: enough optimizer steps since the last one, enough held-out windows. -/
def due (c : Config W P F) (e : Env W P) (s : State W P) : Prop :=
  c.evalEvery ≤ (s.steps : ℤ) - s.evalStepsAt ∧ c.minEvalWindows ≤ e.held.1.length

instance (c : Config W P F) (e : Env W P) (s : State W P) : Decidable (due c e s) :=
  inferInstanceAs (Decidable (_ ∧ _))

/-- A new evaluation: its windows in the queue, the gate reset. -/
def openRound (c : Config W P F) (e : Env W P) (s : State W P) : State W P :=
  { s with
    queue := lastWindows c.evalWindows e.held.1
    evalStepsAt := s.steps
    liveStats := (0, 0)
    candStats := (0, 0) }

/-- The first windows of the queue leave it. -/
def pop (s : State W P) : State W P :=
  { s with queue := s.queue.drop (s.queue.take s.windowsPerMicro).length }

/-- `plan`, over the calls that are left before Python's recursion limit and the looks at the rollback
file so far; no plan when the limit is reached. -/
def plan (c : Config W P F) (e : Env W P) :
    ℕ → ℕ → State W P → Option (Plan W) × State W P × List (Event W P F)
  | 0, _, s => (none, s, [])
  | fuel + 1, look, s =>
    if c.hasRollbackFile && !s.rolledBack && e.rollback look then (some .rollback, s, [])
    else match s.queue with
      | _ :: _ =>
        (some (batch e (s.queue.take s.windowsPerMicro) fun ws => .eval ws (pop s).queue.isEmpty),
          pop s, [])
      | [] =>
        if due c e s then
          let res := plan c e fuel (look + 1) (openRound c e s)
          (res.1, res.2.1, .opened (openRound c e s).queue :: res.2.2)
        else if c.minTrainWindows ≤ e.train.length then
          (some (batch e (e.sample e.train (min s.windowsPerMicro e.train.length)) .train), s, [])
        else (some .none, s, [])

/-! ## Running the op -/

/-- The optimizer step of a micro-step that completes an accumulation. -/
def optStep (e : Env W P) (s : State W P) : State W P :=
  { s with params := e.stepped, steps := s.steps + 1 }

/-- `adapt`. -/
def adapt (c : Config W P F) (e : Env W P) (s : State W P) : State W P :=
  { s with windowsPerMicro := (max 1 (min c.maxWindows e.fit)).toNat }

/-- `micro_step` and `adapt`; `micro % accum` raises when `accum` is 0. -/
def train (c : Config W P F) (e : Env W P) (ws : List W) (s : State W P) :
    State W P × List (Event W P F) :=
  let s := { s with micro := s.micro + 1 }
  if c.accum = 0 then ({ s with disabled := true }, [.trained ws])
  else if (s.micro : ℤ) % c.accum = 0 then
    (adapt c e (optStep e s), [.trained ws, .stepped e.stepped])
  else (adapt c e s, [.trained ws])

/-- `Stats.add` of a batch. -/
def addStats (c : Config W P F) (p : P) (ws : List W) (st : ℕ × ℕ) : ℕ × ℕ :=
  (st.1 + (ws.map (c.anchors p)).sum, st.2 + (ws.map (c.accepted p)).sum)

/-- `gate.feed`. -/
def feed (c : Config W P F) (ws : List W) (s : State W P) : State W P :=
  { s with
    liveStats := addStats c s.live ws s.liveStats
    candStats := addStats c (c.serving s.params) ws s.candStats }

section
variable [Sub F]

/-- What the candidate gains over the live adapter. -/
def gain (c : Config W P F) (s : State W P) : F :=
  c.mean s.candStats.1 s.candStats.2 - c.mean s.liveStats.1 s.liveStats.2

variable [LE F] [DecidableLE F]

/-- `gate.decide`. -/
def decideGate (c : Config W P F) (s : State W P) : Bool :=
  decide (c.minAnchors ≤ s.liveStats.1 ∧ c.margin ≤ gain c s)

/-- The decision behind the last batch, and the promotion. -/
def close (c : Config W P F) (s : State W P) : State W P × List (Event W P F) :=
  let ok := decideGate c s
  let event := .decided s.liveStats.1 (gain c s) ok
  if ok && !s.rolledBack && !c.shadow then
    ({ s with live := c.serving s.params, promotions := s.promotions + 1 },
      [event, .promoted (c.serving s.params)])
  else (s, [event])

/-- The rest of `_step` once the plan is known. -/
def exec (c : Config W P F) (e : Env W P) (s : State W P) : Plan W → State W P × List (Event W P F)
  | .none => (s, [])
  | .rollback => ({ s with live := c.zeroed, rolledBack := true }, [.rolledBack])
  | .train ws => if e.memOk then train c e ws s else (s, [])
  | .eval ws last =>
    if e.memOk then
      let feeds := [.fedLive s.live ws, .fedCand (c.serving s.params) ws]
      if last then ((close c (feed c ws s)).1, feeds ++ (close c (feed c ws s)).2)
      else (feed c ws s, feeds)
    else (s, [])

/-- `Tuner.step` on one rank. -/
def step (c : Config W P F) (e : Env W P) (s : State W P) : State W P × List (Event W P F) :=
  if s.disabled then (s, [])
  else
    let res := plan c e c.recursionLimit 0 s
    match res.1 with
    | none => ({ res.2.1 with disabled := true }, res.2.2)
    | some p => ((exec c e res.2.1 p).1, res.2.2 ++ (exec c e res.2.1 p).2)

/-- The state behind a step. -/
def next (c : Config W P F) (s : State W P) (e : Env W P) : Option (State W P) := some (step c e s).1

/-- The log of a run. -/
def log (c : Config W P F) (s : State W P) (es : List (Env W P)) : List (Event W P F) :=
  collect (next c) (fun s e => (step c e s).2) s es

end

end SuffixHybrid.Tuner
