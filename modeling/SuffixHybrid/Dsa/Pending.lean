import SuffixHybrid.Dsa.Select

/-!
# The pending record

`maybe_fuse` and the two vLLM functions that `_arm_fusion` patches share one record of the fused tensor that
waits for its ranking. Calls come in any order and with any tensors; a trace ends with the first error. A call
of `maybe_fuse` carries what it finds: the environment, the anchors, the caller's locals and the shapes. Tensors
are compared by identity, and `torch.empty` gives a new one.
-/

namespace SuffixHybrid.Dsa

/-! ## Calls -/

/-- A tensor: the `n`th fused one, or one of the caller's. -/
inductive Tensor where
  | fused (n : ℕ)
  | other (n : ℕ)
  deriving DecidableEq

/-- `_state["pending"]`. -/
structure Pending (α : Type) where
  out : Tensor
  batch : Batch α

/-- `_state`, whether the module is patched, and the number of fused tensors. -/
structure State (α : Type) where
  code : Bool
  armed : Bool
  sorted : Option Bool
  pending : Option (Pending α)
  fresh : ℕ

/-- The locals of the caller. -/
structure Loc where
  candidateBlocks : Option Cand
  candidateWrite : Bool
  deepSelect : Bool
  dcpWorldSize : ℕ
  blockSize : ℕ

/-- A call of `maybe_fuse`: the gates; an open capture, whether the decode branch and the parameters of the
block scores match the anchors, and the order of the candidates; the caller's locals; the shapes, whether a
config is shipped, and the data. -/
structure Fuse (α : Type) where
  gateOn : Bool
  selOn : Bool
  capturing : Bool
  tailMatches : Bool
  scoresMatch : Bool
  candsSorted : Bool
  loc : Option Loc
  native : Bool
  rows : ℕ
  numel : ℕ
  tableRows : ℕ
  hasConfig : Bool
  cl : ℕ → ℤ
  logit : ℕ → ℕ → α
  tuning : Tuning
  blank : ℕ × ℕ → WithBot α

/-- The arguments of a ranking. -/
structure Rank where
  cuda : Bool
  topkTokens : ℕ
  maxSeqLen : ℤ

inductive Call (α : Type) where
  | fuse (f : Fuse α)
  | mask (t : Tensor)
  | rank (t : Tensor) (m : Rank)

inductive Error where
  | capturing
  | drifted
  | unranked
  deriving DecidableEq

/-- What a call does: `maybe_fuse` leaves the dense path or returns fused logits; the mask is skipped or
applied; the ranking is vLLM's own, or goes through the remapping. -/
inductive Out (α : Type) where
  | dense
  | fused (p : Pending α)
  | skipped
  | masked (t : Tensor)
  | stock (t : Tensor)
  | remapped (t : Tensor) (idx : ℕ → List ℤ)
  | error (e : Error)

variable {α : Type}

/-- `install`, where the code is not yet bound. -/
def State.install (st : State α) (f : Fuse α) : Except Error (State α) :=
  if st.code then .ok st
  else if f.capturing then .error .capturing
  else if ¬f.tailMatches then .error .drifted
  else if f.selOn ∧ ¬f.scoresMatch then .error .drifted
  else if f.gateOn then .ok { st with code := true, armed := true, sorted := some f.candsSorted }
  else .ok { st with code := true }

/-- The conditions of `maybe_fuse` on the call, and what is scored. -/
def Fuse.batch (f : Fuse α) (sorted : Option Bool) : Option (Batch α) :=
  match f.loc with
  | none => none
  | some loc =>
    if sorted ≠ some true then none
    else
      match loc.candidateBlocks with
      | none => none
      | some cand =>
        if loc.candidateWrite ∨ loc.deepSelect ∨ loc.dcpWorldSize ≠ 1 then none
        else if f.native then none
        else if f.numel ≠ f.rows ∨ f.tableRows ≠ f.rows ∨ loc.blockSize = 0 ∨ cand.rows < f.rows ∨
          ¬f.hasConfig then none
        else some {
          rows := f.rows
          cl := f.cl
          cand := { cand with rows := f.rows }
          bsz := loc.blockSize
          logit := f.logit
          tuning := f.tuning
          blank := f.blank }

/-- `maybe_fuse`. -/
def State.maybeFuse (st : State α) (f : Fuse α) : State α × Out α :=
  if ¬(f.gateOn ∨ f.selOn) then (st, .dense)
  else
    match st.install f with
    | .error e => (st, .error e)
    | .ok st =>
      if ¬f.gateOn then (st, .dense)
      else if st.pending.isSome then ({ st with pending := none }, .error .unranked)
      else
        match f.batch st.sorted with
        | none => (st, .dense)
        | some q =>
          let p := { out := .fused st.fresh, batch := q }
          ({ st with pending := some p, fresh := st.fresh + 1 }, .fused p)

/-- `_apply_candidate_mask`, patched or not. -/
def State.applyMask (st : State α) (t : Tensor) : Out α :=
  match st.armed, st.pending with
  | true, some p => if t = p.out then .skipped else .masked t
  | _, _ => .masked t

variable [LinearOrder α] (V : Vllm α)

/-- The ranking of `get_indexer_topk`, patched or not. -/
def State.getTopk (st : State α) (t : Tensor) (m : Rank) : State α × Out α :=
  match st.armed, st.pending with
  | true, some p =>
    let st := { st with pending := none }
    if t = p.out then (st, .remapped t (p.batch.rank V m.cuda m.topkTokens m.maxSeqLen))
    else (st, .error .unranked)
  | _, _ => (st, .stock t)

def State.step (st : State α) : Call α → State α × Out α
  | .fuse f => st.maybeFuse f
  | .mask t => (st, st.applyMask t)
  | .rank t m => st.getTopk V t m

/-- The calls up to the first error. -/
def State.trace : State α → List (Call α) → List (Call α × Out α)
  | _, [] => []
  | st, c :: cs =>
    (c, (st.step V c).2) ::
      match (st.step V c).2 with
      | .error _ => []
      | _ => (st.step V c).1.trace cs

/-- Before the first call. -/
def State.start : State α where
  code := false
  armed := false
  sorted := none
  pending := none
  fresh := 0

end SuffixHybrid.Dsa
