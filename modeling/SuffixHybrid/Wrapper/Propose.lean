import SuffixHybrid.Wrapper.Basic

/-!
# The step of the wrapper

The two bodies of the V2 hybrid wrapper and `propose`, which runs them. A body ends with the published
draft or with an exception, and in both cases with the state and the events up to there. The result
`none` is a panic of the mixer.
-/

namespace SuffixHybrid
open Lib

namespace Wrapper

/-! ## The fast body -/

/-- The mirror row of a request as the mix reads it. -/
def mirrorRow (s : Wrapper) (id : ReqId) : List Token := (s.mirror.lookup id).getD []

/-- `counts_np`: one count a request, and one zero for an empty batch. -/
def mirrorCounts (s : Wrapper) (ids : List ReqId) : List ℤ :=
  if ids.isEmpty then [0] else ids.map fun id => ((s.mirrorRow id).length : ℤ)

/-- `history_np`: the mirror rows, padded with zeros to the longest. -/
def mirrorGrid (s : Wrapper) (ids : List ReqId) : Grid where
  ncols := max (ids.foldl (fun m id => max m (s.mirrorRow id).length) 0) 1
  rows := (if ids.isEmpty then [[]] else ids.map s.mirrorRow).map fun row =>
    row.takeD (max (ids.foldl (fun m id => max m (s.mirrorRow id).length) 0) 1) 0
  rect := fun r hr => by
    obtain ⟨row, _, rfl⟩ := List.mem_map.mp hr
    exact List.takeD_length _ _ _

/-- What `_mix_from_mirror` finds in the staging buffers: on CUDA the copies of this step may not have
landed yet, except under `SPLIT=diverge`, which waits for them. -/
def landed (cfg : WrapSettings) (s : Wrapper) (t : Step) : Staging :=
  if cfg.cuda && !cfg.splitDiverge then t.inFlight else s.staged t t.onEntry

/-- The feedback that the fast body hands to the mixer. -/
def fastFeedback (cfg : WrapSettings) (s : Wrapper) (t : Step) : List ℤ :=
  acceptedLengths s.previousWidths (t.ids.zipIdx.map fun e =>
    (e.1, (s.landed cfg t).sampled e.2, (s.landed cfg t).rejected e.2))

/-- The verdict on one request of the batch whose published difference is pending. -/
def resolveWin (s : Wrapper) (id : ReqId) (accepted : ℤ) : Wrapper :=
  if id ∈ s.pendingWins then
    { s with
      gate := if accepted = -1 then s.gate
        else s.gate.put id (if 1 ≤ accepted then 0 else s.misses id + 1)
      pendingWins := s.pendingWins.erase id }
  else s

/-- The verifier-win pass of `_mix_from_mirror`. -/
def resolveWins (cfg : WrapSettings) (s : Wrapper) (t : Step) : Wrapper :=
  if cfg.verifierWin then
    let s := (t.ids.zip (s.fastFeedback cfg t)).foldl (fun s e => s.resolveWin e.1 e.2) s
    { s with
      pendingWins := (s.pendingWins.keys.filter fun id => id ∉ t.ids).foldl (fun m id => m.erase id)
        s.pendingWins }
  else s

/-- The mix of the fast body. -/
def fastMix [F64] (cfg : WrapSettings) (s : Wrapper) (t : Step) : Option HybridMixer.Outcome :=
  s.mixer.mixNumpy t.order t.ids (.i64 (s.mirrorCounts t.ids)) (.i64 true (s.mirrorGrid t.ids))
    t.native (some (s.fastFeedback cfg t))

/-- `_check_widths`. -/
def checkWidths (k : ℕ) (mixed : Draft) : Except PyErr Unit :=
  match mixed.zipIdx.find? fun e => k < e.1.length with
  | none => .ok ()
  | some (row, i) =>
    let n := row.length
    .error (.valueError s!"mixed row {i} length {n} exceeds K={k}")

/-- The mixed rows that the temperature gate allows to write. -/
def effective (cfg : WrapSettings) (t : Step) (mixed : Draft) : Draft :=
  List.zipWith (fun r row => if cfg.probabilistic && !r.greedy then [] else row) t.batch mixed

/-- Some written row differs from the native draft. -/
def changed (cfg : WrapSettings) (t : Step) (mixed : Draft) : Bool :=
  (List.zipWith differs (effective cfg t mixed) t.native).any id

/-- The native draft with the given rows written over it. -/
def written (rows native : Draft) : Draft :=
  List.zipWith (fun row draft => row ++ draft.drop row.length) rows native

/-- The gate bookkeeping of `_publish` for one request. -/
def gateRow (cfg : WrapSettings) (s : Wrapper) (id : ReqId) (won : Bool) : Wrapper :=
  if won then
    if cfg.verifierWin then { s with pendingWins := s.pendingWins.put id () }
    else { s with gate := s.gate.put id 0 }
  else { s with gate := s.gate.put id (s.misses id + 1), pendingWins := s.pendingWins.erase id }

/-- The gate bookkeeping of `_publish`. -/
def gateRows (cfg : WrapSettings) (s : Wrapper) (t : Step) (mixed : Draft) : Wrapper :=
  (t.ids.zip (List.zipWith differs (effective cfg t mixed) t.native)).foldl
    (fun s e => s.gateRow cfg e.1 e.2) s

/-- The widths of the mixed drafts replace the recorded ones. -/
def record (s : Wrapper) (t : Step) (mixed : Draft) : Wrapper :=
  { s with previousWidths := (∅ : Map ReqId ℕ).update (t.ids.zip (mixed.map List.length)) }

/-- `_publish`. -/
def publish (cfg : WrapSettings) (s : Wrapper) (t : Step) (mixed : Draft) : BodyOut :=
  let s := s.gateRows cfg t mixed
  if !changed cfg t mixed then
    if t.fast .noteUnchanged then ⟨.error (.fault .noteUnchanged), s, []⟩
    else ⟨.ok t.native, s.record t mixed, cfg.nativeOut t.native⟩
  else if t.fast .write then ⟨.error (.fault .write), s, []⟩
  else
    let output := written (effective cfg t mixed) t.native
    let sent := cfg.nativeOut output
    let s := { s.record t mixed with mixes := s.mixes + 1 }
    if cfg.reportDue s.mixes && t.fast .report then ⟨.error (.fault .report), s, sent⟩
    else ⟨.ok output, s, sent⟩

/-- The width check and `_publish`. -/
def publishChecked (cfg : WrapSettings) (s : Wrapper) (t : Step) (mixed : Draft) : BodyOut :=
  match checkWidths t.k mixed with
  | .error e => ⟨.error (.raised e), s, []⟩
  | .ok () => s.publish cfg t mixed

/-- The state in which the mirror is read: `SPLIT=diverge` absorbs the copies of this step first. -/
def drain (cfg : WrapSettings) (s : Wrapper) (t : Step) : Wrapper :=
  if cfg.splitDiverge then s.absorbPending (s.staged t t.onEntry) else s

/-- `_mix_from_mirror` and `_publish`, on the drained state. -/
def mixAndPublish [F64] (cfg : WrapSettings) (s : Wrapper) (t : Step) : Option BodyOut :=
  let handed := Event.mix s.mixer t.ids (s.fastFeedback cfg t)
  match s.fastMix cfg t with
  | none => none
  | some (.error e, mixer) =>
    some ⟨.error (.raised e), { s.resolveWins cfg t with mixer }, [handed]⟩
  | some (.ok mixed, mixer) =>
    let out := publishChecked cfg { s.resolveWins cfg t with mixer } t mixed
    some { out with events := handed :: out.events }

/-- The full path of `_fast_body`. -/
def fullPath [F64] (cfg : WrapSettings) (s : Wrapper) (t : Step) : Option BodyOut :=
  if t.fast .index then some ⟨.error (.fault .index), s, []⟩
  else if t.fast .absorb then some ⟨.error (.fault .absorb), s, []⟩
  else if t.fast .enqueue then some ⟨.error (.fault .enqueue), s, []⟩
  else
    let s := s.prepare cfg t
    match s.probe cfg t with
    | none => none
    | some false => some (s.skip cfg t)
    | some true =>
      if t.fast .read then some ⟨.error (.fault .read), s, []⟩ else (s.drain cfg t).mixAndPublish cfg t

/-- `_fast_body`. -/
def fastBody [F64] (cfg : WrapSettings) (s : Wrapper) (t : Step) : Option BodyOut :=
  if cfg.rank ≠ 0 ∧ !cfg.replay then some ⟨.ok t.heard, s, [.broadcast t.native]⟩
  else if s.freezes cfg t then some ({ s with steps := s.steps + 1 }.skip cfg t)
  else s.fullPath cfg t

/-! ## The synchronous body -/

/-- The longest live row of the batch. -/
def width (t : Step) : ℕ := t.batch.foldl (fun m r => max m r.total) 0

/-- The token matrix of the synchronous body. -/
def syncGrid (t : Step) : Grid where
  ncols := min (width t) t.ncols
  rows := t.batch.map fun r => r.tokens.take (width t)
  rect := fun row hrow => by
    obtain ⟨r, hr, rfl⟩ := List.mem_map.mp hrow
    rw [List.length_take, t.tokens_length r hr]

/-- The feedback that the synchronous body hands to the mixer. -/
def syncFeedback (s : Wrapper) (t : Step) : List ℤ :=
  acceptedLengths s.previousWidths (t.batch.map fun r => (r.id, r.sampled, r.rejected))

/-- The mix of the synchronous body. -/
def syncMix [F64] (s : Wrapper) (t : Step) : Option HybridMixer.Outcome :=
  s.mixer.mixNumpy t.order t.ids (.i32 (t.batch.map fun r => (r.total : ℤ))) (.i32 (syncGrid t))
    t.native (some (s.syncFeedback t))

/-- The rows of the mix are written and published. -/
def syncPublish (cfg : WrapSettings) (s : Wrapper) (t : Step) (mixed : Draft) : BodyOut :=
  match checkWidths t.k mixed with
  | .error e => ⟨.error (.raised e), s, []⟩
  | .ok () =>
    if t.sync .write then ⟨.error (.fault .write), s, []⟩
    else
      let output := written (effective cfg t mixed) t.native
      let s := { s.record t mixed with mixes := s.mixes + 1 }
      if cfg.reportDue s.mixes && t.sync .report then ⟨.error (.fault .report), s, []⟩
      else ⟨.ok output, s, [.broadcast output]⟩

/-- The owner's part of `_sync_body`, from the mix on. -/
def syncMixAndPublish [F64] (cfg : WrapSettings) (s : Wrapper) (t : Step) : Option BodyOut :=
  let handed := Event.mix s.mixer t.ids (s.syncFeedback t)
  match s.syncMix t with
  | none => none
  | some (.error e, mixer) => some ⟨.error (.raised e), { s with mixer }, [handed]⟩
  | some (.ok mixed, mixer) =>
    let out := syncPublish cfg { s with mixer } t mixed
    some { out with events := handed :: out.events }

/-- `_sync_body`. -/
def syncBody [F64] (cfg : WrapSettings) (s : Wrapper) (t : Step) : Option BodyOut :=
  if t.sync .clone then some ⟨.error (.fault .clone), s, []⟩
  else if cfg.rank ≠ 0 then some ⟨.ok t.heard, s, [.broadcast t.native]⟩
  else if t.sync .read then some ⟨.error (.fault .read), s, []⟩
  else if width t = 0 then some ⟨.ok t.native, s, [.broadcast t.native]⟩
  else s.syncMixAndPublish cfg t

/-! ## The step -/

/-- The step tries the fast body. -/
def triesFast (s : Wrapper) (t : Step) : Bool := !s.fallback && !t.hook

/-- The synchronous body behind the guard of `propose`: an exception publishes the native draft. -/
def syncOrNative [F64] (cfg : WrapSettings) (s : Wrapper) (t : Step) : Option StepOut :=
  (s.syncBody cfg t).map fun out => match out.draft with
    | .ok draft => ⟨draft, out.state, out.events⟩
    | .error _ => ⟨t.native, out.state, out.events⟩

/-- `propose`, on a real step. -/
def propose [F64] (cfg : WrapSettings) (s : Wrapper) (t : Step) : Option StepOut :=
  if s.triesFast t then
    match s.fastBody cfg t with
    | none => none
    | some out => match out.draft with
      | .ok draft => some ⟨draft, out.state, out.events⟩
      | .error _ => (syncOrNative cfg { out.state with fallback := true } t).map fun o =>
        { o with events := out.events ++ o.events }
  else s.syncOrNative cfg t

/-- The state after a step. -/
def step [F64] (cfg : WrapSettings) (s : Wrapper) (t : Step) : Option Wrapper :=
  (s.propose cfg t).map (·.state)

end Wrapper
end SuffixHybrid
