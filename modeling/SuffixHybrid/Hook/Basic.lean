import SuffixHybrid.Mixer.Basic

/-!
# The V1 hook

`_wrap_propose` of `src/suffix_hybrid/wrap.py`, around the native drafter of the V1 runner. A step whose
batch is unsupported publishes the native draft and does not touch the mixer. Any other step hands the
batch to the mixer, with the verifier's outcome read against the lengths that the hook recorded, and
publishes the mixed draft. Whatever raises on the way is caught, and the step publishes the native draft:
also where the mixer has already recorded its proposal.

The rows of a batch come aligned, as the runner keeps them. Exceptions of the mixer are its own; other
work fails where the fault table of the step says so. A panic of the mixer is `none`. The fix of the
draft probabilities, the timers, the counters and the log lines are left out.
-/

namespace SuffixHybrid
open Lib

/-- What the hook stores on the runner. A table that is not there yet reads as the empty one. -/
structure Hook where
  mixer : Option HybridMixer
  lengths : Map ReqId ℕ

namespace Hook

/-- The environment of the mixer and the arguments of its factory. -/
structure Settings where
  cfg : Config
  env : MixerEnv
  numSpecTokens : ℕ
  maxModelLen : ℕ

/-- The points behind the native drafter at which work of the hook can raise: before the mixer is there,
before the mix, and before and after the lengths are recorded. -/
inductive Site where
  | convert
  | read
  | probs
  | report
  deriving DecidableEq

/-- A row of a batch: the request, its native draft, the tokens that the last step sampled for it and the
number of draft tokens that were verified, zero without spec decode metadata. -/
structure Row where
  id : ReqId
  native : List Token
  sampled : List Token
  verified : ℕ

/-- A step: whether the gate passes its batch through, the batch with the arguments for the mixer, and
where the hook fails. -/
structure Step where
  unsupported : Bool
  rows : List Row
  order : HashOrder ReqId
  counts : CountArray
  tokens : TokenArray
  fault : Site → Bool

namespace Step

/-- The request ids of the batch. -/
def ids (t : Step) : List ReqId := t.rows.map (·.id)

/-- The native draft of the batch. -/
def native (t : Step) : List (List Token) := t.rows.map (·.native)

/-- The native drafts for the mixer: a row without a sampled token gives up its draft. -/
def drafts (t : Step) : List (List Token) :=
  t.rows.map fun r => if r.sampled = [] then [] else r.native

end Step

/-- The feedback for a row. -/
def acceptedLength (lengths : Map ReqId ℕ) (r : Row) : ℤ :=
  if r.sampled = [] then -1
  else
    let v := r.verified
    let a : ℤ := if v ≠ 0 then r.sampled.length - 1 else -1
    let tracked := lengths.lookup r.id
    -- more tokens accepted than the recorded proposal has
    if tracked.any fun w : ℕ => (w : ℤ) < a then -1
    -- all drafts accepted, but of another length than the recorded one
    else if a = v ∧ some v ≠ tracked then -1
    else a

/-- How a step ends: the published draft, the state it leaves, the mixer and the feedback that it was
handed, and the proposals that the mixer recorded. -/
structure Out where
  draft : List (List Token)
  state : Hook
  handed : Option (HybridMixer × List ℤ)
  recorded : Option (List (List Token))

/-- The mixer of the runner. The first call makes it. -/
def getMixer (st : Settings) (h : Hook) : Except PyErr HybridMixer :=
  match h.mixer with
  | some m => .ok m
  | none => HybridMixer.new st.cfg st.env st.numSpecTokens st.maxModelLen

/-- The rest of a step after the mix. -/
def publish (h : Hook) (t : Step) (mixed : List (List Token)) : List (List Token) × Hook :=
  if t.fault .probs then (t.native, h)
  else
    let h := { h with lengths := (∅ : Map ReqId ℕ).update (t.ids.zip (mixed.map List.length)) }
    -- the lengths of the mix stay on record when the native draft is published after all
    if t.fault .report then (t.native, h) else (mixed, h)

/-- `propose`. -/
def propose [F64] (st : Settings) (h : Hook) (t : Step) : Option Out :=
  if t.unsupported then some ⟨t.native, h, none, none⟩
  else if t.fault .convert then some ⟨t.native, h, none, none⟩
  else
    match h.getMixer st with
    | .error _ => some ⟨t.native, h, none, none⟩
    | .ok m =>
      if t.fault .read then some ⟨t.native, { h with mixer := some m }, none, none⟩
      else
        let accepted := t.rows.map (acceptedLength h.lengths)
        match m.mixNumpy t.order t.ids t.counts t.tokens t.drafts (some accepted) with
        | none => none
        -- a rejected call leaves the mixer as it was
        | some (.error _, m') =>
          some ⟨t.native, { h with mixer := some m' }, some (m, accepted), none⟩
        | some (.ok mixed, m') =>
          let (draft, h) := publish { h with mixer := some m' } t mixed
          some ⟨draft, h, some (m, accepted), some mixed⟩

/-! ## The proposals of a run -/

/-- A proposal: the step that made it and its tokens. -/
structure Proposal where
  step : ℕ
  tokens : List Token
  deriving DecidableEq

/-- A run of the hook, with the last proposal that the mixer has recorded for a request and the last one
that the hook has published for it. The verifier gets the published one. -/
structure Tape where
  hook : Hook
  time : ℕ
  recorded : Map ReqId Proposal
  published : Map ReqId Proposal

namespace Tape

/-- A runner that the hook has not stored anything on. -/
def start : Tape := ⟨⟨none, ∅⟩, 0, ∅, ∅⟩

/-- The proposals of a step. -/
def proposals (w : Tape) (t : Step) (drafts : List (List Token)) : List (ReqId × Proposal) :=
  t.ids.zip (drafts.map fun tokens => { step := w.time, tokens })

/-- The run after a step that ended in a given way. -/
def advance (w : Tape) (t : Step) (out : Out) : Tape where
  hook := out.state
  time := w.time + 1
  recorded := match out.recorded with
    | none => w.recorded
    | some mixed => w.recorded.update (w.proposals t mixed)
  published := w.published.update (w.proposals t out.draft)

/-- A step of the run. -/
def next [F64] (st : Settings) (w : Tape) (t : Step) : Option Tape :=
  (propose st w.hook t).map (w.advance t)

end Tape
end Hook
end SuffixHybrid
