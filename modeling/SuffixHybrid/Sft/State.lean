import SuffixHybrid.Lib.Run
import SuffixHybrid.Sft.Basic

/-!
# Restore, train and load

The three operations of `State` in `api.py`. An operation is a list of actions; it leaves the list where one
of them raises and goes on with its failure path. What the calls to the engine and to the Hub do is given to
the operation, and so are the text of the exception that ends it and the parts of a request that only decide
whether it is accepted (`valid` stands for the checks on the examples, the step counts and the rates, and
for the tokenization). Memory figures and losses are left out.
-/

namespace SuffixHybrid.Sft

/-- A call to the Hub. -/
structure HubCall where
  ok : Bool
  served : Bool

/-- A part of an operation: the state behind it, and whether it returns. -/
abbrev Action := World → World × Bool

/-- Actions in order, up to the first one that raises. -/
def doAll : List Action → Action
  | [], w => (w, true)
  | a :: as, w => if (a w).2 then doAll as (a w).1 else ((a w).1, false)

/-- Stages in order: the one that raises. -/
def doStages : List (Stage × List Action) → World → World × Option Stage
  | [], w => (w, none)
  | s :: ss, w => if (doAll s.2 w).2 then doStages ss (doAll s.2 w).1 else ((doAll s.2 w).1, some s.1)

section
variable (P : Pod)

/-- `State.rpc` with errors checked. -/
def rpcA (op : Op) (c : Call) : Action := fun w => (w.rpc P op c, w.returns P op c)

/-- `State.rpc` with `check=False`. -/
def rpcU (op : Op) (c : Call) : Action := fun w => (w.rpc P op c, !c.raises)

/-- A call to the Hub. -/
def hubA (c : HubCall) : Action := fun w => (w.serve c.served, c.ok)

/-- A check of the server on its own. -/
def checkA (ok : Bool) : Action := fun w => (w, ok)

/-- `State.reset_cache`: the engine clears the prefix cache or refuses to. -/
def resetCacheA (c : HubCall) : Action := fun w => ((if c.ok then { w with cache := [] } else w).serve c.served, c.ok)

/-! ## Restore -/

/-- An attempt of a restore: the pointer of the Hub (no pointer, the base model or a run), its files, and
the op. -/
structure Attempt where
  latest : HubCall
  pointer : Option (Option String)
  fetch : HubCall
  load : Call

namespace Attempt

/-- The actions of an attempt. -/
def actions (a : Attempt) : List Action :=
  hubA a.latest :: match a.pointer.join with
    | some id => [hubA a.fetch, rpcA P (.load id) a.load]
    | none => []

end Attempt

namespace World

/-- The attempts that are left. -/
def restoreFrom (text : String) : List Attempt → World → World
  | [], w => { w with status := { w.status with state := .restoreFailed, error := some text } }
  | a :: as, w =>
    let (w', ok) := doAll (a.actions P) w
    if ok then { w' with status := { w'.status with state := .idle, checkpoint := a.pointer } }
    else restoreFrom text as w'

end World

/-- What happens in a restore. -/
structure RestoreCalls where
  first : Attempt
  second : Attempt
  third : Attempt
  text : String

def RestoreCalls.attempts (c : RestoreCalls) : List Attempt := [c.first, c.second, c.third]

/-- `State.restore`. -/
def World.restore (c : RestoreCalls) (w : World) : World := w.restoreFrom P c.text c.attempts

/-! ## Train -/

/-- An optimizer step: its micro-batches, and whether the loss is finite. -/
structure StepCalls where
  micros : List Call
  finite : Bool
  step : Call

/-- What happens in a training run. `recovery` is the failure path. -/
structure TrainCalls where
  valid : Bool
  runId : String
  privateRepo : HubCall
  parityBefore : Call
  agrees : Bool
  kvFree : Call
  begin : Call
  firstStep : StepCalls
  steps : List StepCalls
  mkdir : Bool
  save : Call
  metadata : Bool
  publish : HubCall
  kvRestore : Call
  commit : Call
  resetCache : HubCall
  parityAfter : Call
  recoverKv : Call
  recoverAbort : Call
  recoverReset : Call
  text : String

/-- The actions of an optimizer step. -/
def StepCalls.actions (id : String) (s : StepCalls) : List Action :=
  (s.micros.map fun c => rpcA P .micro c) ++ [checkA s.finite, rpcA P (.step id) s.step]

namespace TrainCalls
variable (c : TrainCalls)

/-- Write `metadata.json`: the parent is the run that the status names. -/
def writeMeta : Action := fun w =>
  ({ w with records := ⟨c.runId, w.status.checkpoint.join, w.start⟩ :: w.records }, c.metadata)

def initialization : List Action :=
  [hubA c.privateRepo, rpcA P .eval c.parityBefore, checkA c.agrees]

def training : List Action :=
  [rpcA P .kvFree c.kvFree, rpcA P .begin c.begin] ++
    (c.firstStep :: c.steps).flatMap (StepCalls.actions P c.runId)

def checkpoint : List Action := [checkA c.mkdir, rpcA P .save c.save, c.writeMeta]

/-- The stages in front of the one that serves the run. -/
def early : List (Stage × List Action) :=
  [(.initialization, c.initialization P), (.training, c.training P), (.checkpoint, c.checkpoint P),
    (.upload, [hubA c.publish])]

/-- The stage that serves the run. -/
def serving : List Action :=
  [rpcA P .kvRestore c.kvRestore, rpcA P .commit c.commit, resetCacheA c.resetCache,
    rpcA P .eval c.parityAfter]

def stages : List (Stage × List Action) := c.early P ++ [(.serve, c.serving P)]

/-- The failure path up to the status. -/
def recovery (stage : Stage) : List Action :=
  [rpcU P .kvRestore c.recoverKv, rpcU P .abort c.recoverAbort] ++
    if stage = .serve then [rpcU P .reset c.recoverReset] else []

/-- `State.train` accepts the request. -/
def accepted (w : World) : Bool := c.valid && w.status.state != .restoreFailed

/-- The status of a run that has started. -/
def started (w : World) : World :=
  { w with status :=
    { w.status with state := .training, runId := some c.runId, rejected := none } }

end TrainCalls

/-- The stages of an accepted run. -/
def World.trainStages (c : TrainCalls) (w : World) : World × Option Stage :=
  doStages (c.stages P) (c.started w)

/-- `State.train`. A request that is not accepted is reported by the route. -/
def World.train (c : TrainCalls) (w : World) : World :=
  if c.accepted w then
    match w.trainStages P c with
    | (w', none) =>
      { w' with status := { w'.status with state := .idle, checkpoint := some (some c.runId), error := none } }
    | (w', some stage) =>
      let (w'', ok) := doAll (c.recovery P stage) w'
      if ok then { w'' with status :=
        { w''.status with state := if stage = .serve then .serveFailedBase else .failed,
                          stage := some stage, error := some c.text } }
      else w''
  else { w with status := { w.status with rejected := some c.text } }

/-! ## Load -/

/-- What happens in a load. The target is missing where the request has no string. -/
structure LoadCalls where
  target : Option String
  privateRepo : HubCall
  runMeta : HubCall
  fingerprint : Bool
  fetch : HubCall
  apply : Call
  publish : HubCall
  resetCache : HubCall
  recoverReset : Call
  text : String

namespace LoadCalls
variable (c : LoadCalls)

/-- The run that is asked for, or the base model. -/
def request : Option (Option String) :=
  c.target.bind fun id =>
    if id = "" ∨ '/' ∈ id.toList ∨ ['.', '.'] <:+: id.toList then none
    else some (if id = "base" then none else some id)

/-- Before anything served is touched. -/
def prepare (run : Option String) : List Action :=
  hubA c.privateRepo :: if run.isSome then [hubA c.runMeta, checkA c.fingerprint, hubA c.fetch] else []

/-- The op that a load applies. -/
def op : Option String → Op
  | some id => .load id
  | none => .reset

def apply' (run : Option String) : List Action :=
  [rpcA P (op run) c.apply, hubA c.publish, resetCacheA c.resetCache]

/-- The status of a load that has started. -/
def started (w : World) : World :=
  { w with status := { w.status with state := .loading, runId := c.target, rejected := none } }

end LoadCalls

/-- `State.load`. A request that is not accepted is reported by the route. -/
def World.load (c : LoadCalls) (w : World) : World :=
  match c.request with
  | none => { w with status := { w.status with rejected := some c.text } }
  | some run =>
    let (w1, prepared) := doAll (c.prepare run) (c.started w)
    if prepared then
      let (w2, applied) := doAll (c.apply' P run) w1
      if applied then
        { w2 with status := { w2.status with state := .idle, checkpoint := some run, error := none } }
      else
        let (w3, ok) := rpcU P .reset c.recoverReset w2
        if ok then { w3 with status :=
          { w3.status with state := .loadFailed, checkpoint := some none, error := some c.text } }
        else w3
    else { w1 with status :=
      { w1.status with state := w.status.state, runId := w.status.runId, error := w.status.error,
                       rejected := some c.text } }

/-! ## Operations -/

/-- An operation of the server. -/
inductive Operation where
  | restore (c : RestoreCalls)
  | train (c : TrainCalls)
  | load (c : LoadCalls)

/-- An operation from its start to its end, returned or raised. -/
def World.exec (w : World) : Operation → World
  | .restore c => w.restore P c
  | .train c => w.train P c
  | .load c => w.load P c

/-- Operations one after the other, as `_exclusive` runs them. -/
def World.execAll (ops : List Operation) (w : World) : World := ops.foldl (World.exec P) w

/-- The operations as steps of a run. -/
def step (w : World) (op : Operation) : Option World := some (w.exec P op)

lemma run_step (ops : List Operation) (w : World) : Lib.run (step P) w ops = some (w.execAll P ops) := by
  induction ops generalizing w with
  | nil => rfl
  | cons op ops ih => exact ih (w.exec P op)

end
end SuffixHybrid.Sft
