import Mathlib.Data.Fintype.Basic
import Mathlib.Data.List.OfFn
import SuffixHybrid.Lib.Lockstep

/-!
# One micro-step of the tuner on every rank

The engine calls `worker_step` on all ranks at once. A rank votes whether its tuner is alive, gets the
plan of rank 0, agrees on free memory, runs the op of the plan (whose own collectives are counted
only), and copies the candidate when rank 0 decides so. Each rank is a `Lib.Proc`; a rank may raise at
one `Point` of a step, which `Tuner.step` catches, but for the log line behind the step.
-/

namespace SuffixHybrid.Tune
open Lib

/-! ## Messages -/

/-- The plan of rank 0: the op, the number of collectives inside it, and whether the batch is the last
one of the evaluation. -/
inductive Plan where
  | none
  | rollback
  | train (colls : ℕ)
  | eval (colls : ℕ) (last : Bool)
deriving DecidableEq

/-- The collectives of a step. -/
inductive Coll where
  | vote
  | plan
  | memory
  | op (i : ℕ)
  | promote
deriving DecidableEq

/-- What a rank brings to a collective or gets from it. -/
inductive Msg where
  | empty
  | flag (b : Bool)
  | plan (p : Plan)
deriving DecidableEq

/-- The answer of a collective: a flag is set when some rank sets it, a broadcast is the message of
rank 0. -/
def combine {n : ℕ} : Coll → (Fin (n + 1) → Msg) → Msg
  | .vote, x => .flag (decide (∃ r, x r = .flag true))
  | .memory, x => .flag (decide (∃ r, x r = .flag true))
  | .plan, x => x 0
  | .promote, x => x 0
  | .op _, _ => .empty

/-! ## Ranks -/

/-- A place of `Tuner.step` at which a rank may raise: the injected fault or `plan()`; `zero_` of the
rollback; the memory check; the op behind so many of its collectives; `promote` behind so many copied
adapters; `maybe_log`. -/
inductive Point where
  | start
  | zero
  | memory
  | op (colls : ℕ)
  | promote (copied : ℕ)
  | log
deriving DecidableEq

/-- What happens on one rank in a step: where it raises, whether it is short of memory, and what its
`gate.decide` returns. -/
structure Local where
  raise : Option Point
  low : Bool
  decide : Bool
deriving DecidableEq

/-- The tuner of a rank: whether it is installed, `disabled` and `rolled_back`. -/
structure Rank where
  installed : Bool
  disabled : Bool
  rolledBack : Bool
deriving DecidableEq

/-- `TUNER is not None and not TUNER.disabled`. -/
def Rank.ok (s : Rank) : Bool := s.installed && !s.disabled

/-- How a step ends on a rank: its tuner, whether an exception was caught or left `worker_step`, how
many adapters were copied, and whether it worked. -/
structure Out where
  rank : Rank
  caught : Bool
  escaped : Bool
  copied : ℕ
  worked : Bool
deriving DecidableEq

/-- A program of one rank. -/
abbrev Prog (α : Type) : Type := Proc Coll Msg Msg α

/-! ## The step -/

/-- The collectives of an op from the `i`-th on; whether the rank raised. -/
def ops (raise : Option Point) : ℕ → ℕ → Prog Bool
  | i, 0 => .done (raise = some (.op i))
  | i, m + 1 => if raise = some (.op i) then .done true
    else .sync (.op i) .empty fun _ => ops raise (i + 1) m

/-- `_mem_ok` and the op; `none` when the rank raised, else whether the op ran. -/
def runOp (a : Local) (colls : ℕ) : Prog (Option Bool) :=
  if a.raise = some .memory then .done none
  else .sync .memory (.flag a.low) fun y =>
    if y = .flag true then .done (some false)
    else (ops a.raise 0 colls).bind fun raised => .done (if raised then none else some true)

/-- The part of a step that raised. -/
def raised (s : Rank) (copied : ℕ) : Out :=
  { rank := { s with disabled := true }, caught := true, escaped := false, copied := copied, worked := false }

/-- The end of a step that did not raise. -/
def finish (a : Local) (s : Rank) (copied : ℕ) (worked : Bool) : Out :=
  { rank := s, caught := false, escaped := a.raise = some .log, copied := copied, worked := worked }

/-- `gate.promote`, over the number of adapters. -/
def promote (adapters : ℕ) (a : Local) (s : Rank) : Out :=
  match a.raise with
  | some (.promote k) => raised s (min k adapters)
  | _ => finish a s adapters true

/-- `Tuner.step` of a tuner that is not disabled, with the plan of rank 0. -/
def tunerStep (adapters : ℕ) (shadow : Bool) (rank0 : Bool) (p : Plan) (a : Local) (s : Rank) :
    Prog Out :=
  if a.raise = some .start then .done (raised s 0)
  else .sync .plan (if rank0 then .plan p else .empty) fun y =>
    match y with
    | .plan .none => .done (finish a s 0 false)
    | .plan .rollback =>
      if a.raise = some .zero then .done (raised s 0)
      else .done (finish a { s with rolledBack := true } 0 true)
    | .plan (.train colls) => (runOp a colls).bind fun res => .done <| match res with
      | none => raised s 0
      | some worked => finish a s 0 worked
    | .plan (.eval colls last) => (runOp a colls).bind fun res => match res with
      | none => .done (raised s 0)
      | some false => .done (finish a s 0 false)
      | some true =>
        if last then
          let d := a.decide && !s.rolledBack && !shadow
          .sync .promote (if rank0 then .flag d else .empty) fun y =>
            if y = .flag true then .done (promote adapters a s) else .done (finish a s 0 true)
        else .done (finish a s 0 true)
    -- `p["op"]` of what is not a plan
    | _ => .done (raised s 0)

/-- A rank that does not take part. -/
def refused (s : Rank) : Out :=
  { rank := s, caught := false, escaped := false, copied := 0, worked := false }

/-- `worker_step` in a group of `world` ranks. -/
def workerStep (world adapters : ℕ) (shadow : Bool) (rank0 : Bool) (p : Plan) (a : Local) (s : Rank) :
    Prog Out :=
  if 1 < world then
    .sync .vote (.flag !s.ok) fun y =>
      if y = .flag true then .done (refused { s with disabled := s.disabled || s.installed })
      else if s.ok then tunerStep adapters shadow rank0 p a s else .done (refused s)
  else if s.ok then tunerStep adapters shadow rank0 p a s else .done (refused s)

/-! ## Runs -/

/-- The configuration of the tuners, the same on every rank. -/
structure Config where
  adapters : ℕ
  shadow : Bool

/-- What a call of `worker_step` on all ranks meets: the plan of rank 0, and what happens on each. -/
structure Call (n : ℕ) where
  plan : Plan
  rank : Fin (n + 1) → Local

/-- The programs of the ranks in one call. -/
def Call.progs {n : ℕ} (cfg : Config) (c : Call n) (s : Fin (n + 1) → Rank) (r : Fin (n + 1)) : Prog Out :=
  workerStep (n + 1) cfg.adapters cfg.shadow (r = 0) c.plan (c.rank r) (s r)

/-- The decision that rank 0 broadcasts. -/
def Call.decision {n : ℕ} (cfg : Config) (c : Call n) (s : Fin (n + 1) → Rank) : Bool :=
  (c.rank 0).decide && !(s 0).rolledBack && !cfg.shadow

/-- What a rank does with the answer of the vote. -/
def Call.afterVote {n : ℕ} (cfg : Config) (c : Call n) (s : Fin (n + 1) → Rank) (r : Fin (n + 1)) (y : Msg) :
    Prog Out :=
  if y = .flag true then .done (refused { s r with disabled := (s r).disabled || (s r).installed })
  else if (s r).ok then tunerStep cfg.adapters cfg.shadow (r = 0) c.plan (c.rank r) (s r)
  else .done (refused (s r))

/-- A step on all ranks in lockstep, with the trace of its collectives. -/
def Steps {n : ℕ} (cfg : Config) (c : Call n) (s : Fin (n + 1) → Rank)
    (tr : List (Coll × (Fin (n + 1) → Msg))) (out : Fin (n + 1) → Out) : Prop :=
  Lockstep combine (c.progs cfg s) tr out

end SuffixHybrid.Tune
