import Mathlib.Logic.Function.Basic
import SuffixHybrid.Drafter.Resolve
import SuffixHybrid.Lib.Fifo

/-!
# The staging of the asynchronous drafter

`_step` of `async_spec.py` statement by statement, beside the stream of the device. A call of it picks the
slot of its parity, waits for the event that the last call has recorded, reads the snapshot that this call
has left (`taken`), and then enqueues a copy of the lengths and one of the counter into the snapshot of its
slot, rewrites the candidates of its slot and enqueues a copy of them (`Stmt`). It records the event of its
slot on the way out of its `try` block, whether it returns or raises. Any statement may raise; `propose`
catches it and degrades. Between two statements the device may complete any number of copies.

A call reuses its slot only when the copies through it of the earlier calls have completed
(`slots_kept_apart`), as long as the record of an event does not itself raise. Statements that touch
neither the slots nor what decides about them are left out, and so is what the candidates are.
-/

namespace SuffixHybrid.AsyncStaging
open Lib

/-- What a copy transfers: the lengths of the rows of a batch, the counter of real drafts, or the
candidates. -/
inductive Kind
  | rows (x : StepInput)
  | counter
  | pack

/-- A copy through a slot, with the call of `_step` that enqueues it. -/
structure Copy where
  call : ℕ
  slot : ℕ
  kind : Kind

/-- `pending`, with the call and the batch that it is from. -/
structure Taken where
  call : ℕ
  slot : ℕ
  batch : StepInput

/-- The copy of the lengths of a snapshot. -/
def Taken.copy (p : Taken) : Copy := ⟨p.call, p.slot, .rows p.batch⟩

/-- The tuple in `pending`. -/
def Taken.pending (p : Taken) : Pending :=
  { slot := p.slot, ids := p.batch.ids, idx := p.batch.idx }

/-- The statements of the `try` block. -/
inductive Stmt
  | rows
  | counter
  | pending
  | clear
  | fill
  | upload
  | rest
  deriving DecidableEq

/-- The statement after a statement. -/
def Stmt.next : Stmt → Stmt
  | .rows => .counter
  | .counter => .pending
  | .pending => .clear
  | .clear => .fill
  | .fill => .upload
  | .upload => .rest
  | .rest => .rest

/-- Where the host is in `_step`. -/
inductive Pc
  | idle
  | entered (x : StepInput)
  | advanced (x : StepInput) (slot : ℕ)
  | waited (x : StepInput) (slot : ℕ)
  | taken (x : StepInput) (slot : ℕ) (p : Taken)
  | inTry (x : StepInput) (slot : ℕ) (stmt : Stmt)
  | leaving (slot : ℕ) (raised : Bool)
  | recorded (slot : ℕ) (raised : Bool)

/-- The host is in a call and has not come to the `try` block. -/
def Pc.early : Pc → Bool
  | .entered _ | .advanced _ _ | .waited _ _ | .taken _ _ _ => true
  | _ => false

/-- The drafter and the stream. `call` counts the calls of `_step` that have ended, and `recorded` is one
more than the last call that has recorded its event, 0 before the first. -/
structure Sys where
  call : ℕ
  recorded : ℕ
  pc : Pc
  step : ℕ
  pending : Option Taken
  events : ℕ → ℕ
  lastEv : Option ℕ
  stream : Fifo Copy

namespace Sys

/-- A new drafter. -/
def start : Sys where
  call := 0
  recorded := 0
  pc := .idle
  step := 0
  pending := none
  events := fun _ => 0
  lastEv := none
  stream := .empty

/-- How many copies the last event waits for. -/
def fence (σ : Sys) : ℕ := (σ.lastEv.map σ.events).getD 0

/-- A completed copy of lengths fills the first entries of a snapshot. -/
def land (snap : ℕ → ℕ → ℤ) (c : Copy) : ℕ → ℕ → ℤ :=
  match c.kind with
  | .rows x => Function.update snap c.slot fun j =>
      if j < x.rowTotals.length then x.rowTotals.getD j 0 else snap c.slot j
  | _ => snap

/-- The pinned snapshots as the host finds them. -/
def snap (σ : Sys) : ℕ → ℕ → ℤ := σ.stream.landed land fun _ _ => 0

/-- The entries of a snapshot that `_absorb` reads. -/
def snapshot (σ : Sys) (p : Taken) : List ℤ := (List.range p.batch.ids.length).map (σ.snap p.slot)

/-- A statement of the `try` block. -/
def exec (σ : Sys) (x : StepInput) (slot : ℕ) : Stmt → Sys
  | .rows => { σ with stream := σ.stream.enqueue ⟨σ.call, slot, .rows x⟩ }
  | .counter => { σ with stream := σ.stream.enqueue ⟨σ.call, slot, .counter⟩ }
  | .pending => { σ with pending := some ⟨σ.call, slot, x⟩ }
  | .upload => { σ with stream := σ.stream.enqueue ⟨σ.call, slot, .pack⟩ }
  | .clear | .fill | .rest => σ

/-- `_degrade`, after an exception has ended the call. -/
def degrade (σ : Sys) : Sys := { σ with pending := none, pc := .idle, call := σ.call + 1 }

/-- The slot whose snapshot the host reads next, whose candidates it rewrites next, or into whose snapshot
it enqueues a copy next. -/
def accesses (σ : Sys) : Option ℕ :=
  match σ.pc with
  | .taken _ _ p => some p.slot
  | .inTry _ slot .rows | .inTry _ slot .counter | .inTry _ slot .clear | .inTry _ slot .fill => some slot
  | _ => none

end Sys

/-- A statement of the host, an exception in place of one, or a copy that completes. With `fails`, the
record of an event may raise too. -/
inductive Step (fails : Bool) : Sys → Sys → Prop
  | device {σ : Sys} (hdone : σ.stream.done < σ.stream.log.length) :
      Step fails σ { σ with stream := σ.stream.complete }
  | call {σ : Sys} (x : StepInput) (hpc : σ.pc = .idle) : Step fails σ { σ with pc := .entered x }
  | advance {σ : Sys} {x : StepInput} (hpc : σ.pc = .entered x) :
      Step fails σ { σ with step := σ.step + 1, pc := .advanced x (σ.step % 2) }
  | wait {σ : Sys} {x : StepInput} {slot : ℕ} (hpc : σ.pc = .advanced x slot)
      (hwait : σ.fence ≤ σ.stream.done) : Step fails σ { σ with pc := .waited x slot }
  | absorbNone {σ : Sys} {x : StepInput} {slot : ℕ} (hpc : σ.pc = .waited x slot)
      (hp : σ.pending = none) : Step fails σ { σ with pc := .inTry x slot .rows }
  | take {σ : Sys} {x : StepInput} {slot : ℕ} {p : Taken} (hpc : σ.pc = .waited x slot)
      (hp : σ.pending = some p) : Step fails σ { σ with pending := none, pc := .taken x slot p }
  | read {σ : Sys} {x : StepInput} {slot : ℕ} {p : Taken} (hpc : σ.pc = .taken x slot p) :
      Step fails σ { σ with pc := .inTry x slot .rows }
  | exec {σ : Sys} {x : StepInput} {slot : ℕ} {stmt : Stmt} (hpc : σ.pc = .inTry x slot stmt)
      (hstmt : stmt ≠ .rest) : Step fails σ { σ.exec x slot stmt with pc := .inTry x slot stmt.next }
  | leave {σ : Sys} {x : StepInput} {slot : ℕ} (hpc : σ.pc = .inTry x slot .rest) :
      Step fails σ { σ with pc := .leaving slot false }
  | raiseEarly {σ : Sys} (hpc : σ.pc.early = true) : Step fails σ σ.degrade
  | raiseTry {σ : Sys} {x : StepInput} {slot : ℕ} {stmt : Stmt} (hpc : σ.pc = .inTry x slot stmt) :
      Step fails σ { σ with pc := .leaving slot true }
  | record {σ : Sys} {slot : ℕ} {raised : Bool} (hpc : σ.pc = .leaving slot raised) :
      Step fails σ { σ with
        events := Function.update σ.events slot σ.stream.record
        pc := .recorded slot raised }
  | finish {σ : Sys} {slot : ℕ} (hpc : σ.pc = .recorded slot false) :
      Step fails σ { σ with
        lastEv := some slot, recorded := σ.call + 1, pc := .idle, call := σ.call + 1 }
  | finishRaised {σ : Sys} {slot : ℕ} (hpc : σ.pc = .recorded slot true) :
      Step fails σ { σ with lastEv := some slot, recorded := σ.call + 1 }.degrade
  | raiseRecord {σ : Sys} {slot : ℕ} {raised : Bool} (hfails : fails = true)
      (hpc : σ.pc = .leaving slot raised ∨ σ.pc = .recorded slot raised) : Step fails σ σ.degrade

/-- The states of the runs of a new drafter. -/
inductive Reach (fails : Bool) : Sys → Prop
  | start : Reach fails .start
  | step {σ σ' : Sys} (h : Reach fails σ) (hstep : Step fails σ σ') : Reach fails σ'

/-! ## The invariant -/

/-- The copy of the lengths of a snapshot has been enqueued, and no later copy of lengths through its
slot. -/
def Holds (σ : Sys) (p : Taken) : Prop :=
  ∃ before after, σ.stream.log = before ++ p.copy :: after ∧
    ∀ c ∈ after, c.slot = p.slot → ∀ x, c.kind ≠ .rows x

/-- What holds where the host is. -/
def AtPc (σ : Sys) : Pc → Prop
  | .idle | .entered _ | .advanced _ _ =>
    ∀ p, σ.pending = some p → σ.recorded = σ.call ∧ Holds σ p
  | .waited _ _ =>
    σ.fence ≤ σ.stream.done ∧ ∀ p, σ.pending = some p → σ.recorded = σ.call ∧ Holds σ p
  | .taken _ _ p =>
    σ.fence ≤ σ.stream.done ∧ σ.pending = none ∧ σ.recorded = σ.call ∧ Holds σ p
  | .inTry x slot stmt => σ.fence ≤ σ.stream.done ∧
    (stmt ≠ .rows → Holds σ ⟨σ.call, slot, x⟩) ∧
    ∀ p, σ.pending = some p → Holds σ p ∧ stmt ≠ .rows ∧ stmt ≠ .counter ∧ stmt ≠ .pending
  | .leaving _ raised => raised = false → ∀ p, σ.pending = some p → Holds σ p
  | .recorded slot raised => σ.events slot = σ.stream.log.length ∧
    (raised = false → ∀ p, σ.pending = some p → Holds σ p)

/-- The host has not enqueued a copy in its call. -/
def Pc.before : Pc → Bool
  | .inTry _ _ stmt => stmt = .rows
  | .leaving _ _ | .recorded _ _ => false
  | _ => true

/-- The invariant. -/
structure Inv (fails : Bool) (σ : Sys) : Prop where
  done_le : σ.stream.done ≤ σ.stream.log.length
  events_le : ∀ e, σ.events e ≤ σ.stream.log.length
  recorded_le : σ.recorded ≤ σ.call
  calls : ∀ c ∈ σ.stream.log, c.call < σ.call ∨ c.call = σ.call ∧ σ.pc.before = false
  fenced : ∀ i c, σ.stream.log[i]? = some c → c.call < σ.recorded → i < σ.fence
  covered : fails = false → ∀ c ∈ σ.stream.log, c.call < σ.recorded ∨ c.call = σ.call
  atPc : AtPc σ σ.pc

section invariant
variable {fails : Bool} {σ : Sys}

lemma Holds.enqueue {p : Taken} (h : Holds σ p) {c : Copy} (hc : c.slot = p.slot → ∀ x, c.kind ≠ .rows x)
    (pc : Pc) : Holds { σ with stream := σ.stream.enqueue c, pc } p := by
  obtain ⟨before, after, hlog, hafter⟩ := h
  refine ⟨before, after ++ [c], ?_, fun c' hc' => ?_⟩
  · show σ.stream.log ++ [c] = _
    rw [hlog, List.append_assoc, List.cons_append]
  · rcases List.mem_append.mp hc' with hold | hnew
    · exact hafter c' hold
    · rw [List.mem_singleton.mp hnew]
      exact hc

lemma holds_enqueue (p : Taken) (pc : Pc) :
    Holds { σ with stream := σ.stream.enqueue p.copy, pc } p :=
  ⟨σ.stream.log, [], rfl, by simp⟩

/-- The host goes on without a copy. -/
lemma Inv.goto (h : Inv fails σ) {step : ℕ} {pending : Option Taken} {pc : Pc}
    (hbefore : σ.pc.before = true ∨ pc.before = false) (hat : AtPc { σ with pending } pc) :
    Inv fails { σ with step, pending, pc } where
  done_le := h.done_le
  events_le := h.events_le
  recorded_le := h.recorded_le
  calls := fun c hc => (h.calls c hc).imp id fun ⟨hcall, hown⟩ => ⟨hcall, hbefore.resolve_left (by simp [hown])⟩
  fenced := h.fenced
  covered := h.covered
  atPc := by cases pc <;> exact hat

/-- The host enqueues a copy. -/
lemma Inv.enqueue (h : Inv fails σ) {c : Copy} (hc : c.call = σ.call) {pc : Pc} (hbefore : pc.before = false)
    (hat : AtPc { σ with stream := σ.stream.enqueue c, pc } pc) :
    Inv fails { σ with stream := σ.stream.enqueue c, pc } where
  done_le := by
    rw [Fifo.length_enqueue]
    exact Nat.le_succ_of_le h.done_le
  events_le := fun e => by
    rw [Fifo.length_enqueue]
    exact Nat.le_succ_of_le (h.events_le e)
  recorded_le := h.recorded_le
  calls := fun c' hc' => by
    rcases Fifo.mem_enqueue.mp hc' with hold | rfl
    · exact (h.calls c' hold).imp id fun hown => ⟨hown.1, hbefore⟩
    · exact Or.inr ⟨hc, hbefore⟩
  fenced := fun i c' hc' hrecorded => by
    rcases Fifo.getElem?_enqueue hc' with hold | ⟨_, rfl⟩
    · exact h.fenced i c' hold hrecorded
    · have hle := h.recorded_le
      have hlt : c'.call < σ.recorded := hrecorded
      omega
  covered := fun hfails c' hc' => by
    rcases Fifo.mem_enqueue.mp hc' with hold | rfl
    · exact h.covered hfails c' hold
    · exact Or.inr hc
  atPc := hat

/-- A call ends without having recorded its event. -/
lemma Inv.degrade (h : Inv fails σ) (hcovered : fails = false → σ.pc.before = true) :
    Inv fails σ.degrade where
  done_le := h.done_le
  events_le := h.events_le
  recorded_le := Nat.le_succ_of_le h.recorded_le
  calls := fun c hc => Or.inl (by
    show c.call < σ.call + 1
    rcases h.calls c hc with hlt | ⟨heq, _⟩ <;> omega)
  fenced := h.fenced
  covered := fun hfails c hc => Or.inl (by
    rcases h.covered hfails c hc with hlt | heq
    · exact hlt
    · rcases h.calls c hc with hlt | ⟨_, hafter⟩
      · omega
      · rw [hcovered hfails] at hafter
        cases hafter)
  atPc := fun p hp => by cases hp

/-- A call ends behind the record of its event. -/
lemma Inv.finish (h : Inv fails σ) {slot : ℕ} {raised : Bool} (hpc : σ.pc = .recorded slot raised)
    (pending : Option Taken) (hpending : ∀ p, pending = some p → Holds σ p) :
    Inv fails { σ with
      lastEv := some slot, recorded := σ.call + 1, pending, pc := .idle, call := σ.call + 1 } where
  done_le := h.done_le
  events_le := h.events_le
  recorded_le := Nat.le_refl _
  calls := fun c hc => Or.inl (by
    show c.call < σ.call + 1
    rcases h.calls c hc with hlt | ⟨heq, _⟩ <;> omega)
  fenced := fun i c hc _ => by
    have hat := h.atPc
    rw [hpc] at hat
    show i < σ.events slot
    rw [hat.1]
    exact (List.getElem?_eq_some_iff.mp hc).1
  covered := fun _ c hc => Or.inl (by
    show c.call < σ.call + 1
    rcases h.calls c hc with hlt | ⟨heq, _⟩ <;> omega)
  atPc := fun p hp => ⟨rfl, hpending p hp⟩

/-- A copy completes. -/
lemma Inv.device (h : Inv fails σ) (hdone : σ.stream.done < σ.stream.log.length) :
    Inv fails { σ with stream := σ.stream.complete } where
  done_le := hdone
  events_le := h.events_le
  recorded_le := h.recorded_le
  calls := h.calls
  fenced := h.fenced
  covered := h.covered
  atPc := by
    have hat := h.atPc
    show AtPc _ σ.pc
    cases hpc : σ.pc <;> rw [hpc] at hat
    case waited | taken | inTry => exact ⟨Nat.le_succ_of_le hat.1, hat.2⟩
    all_goals exact hat

/-- The event of a slot is recorded. -/
lemma Inv.record (h : Inv fails σ) {slot : ℕ} {raised : Bool} (hpc : σ.pc = .leaving slot raised) :
    Inv fails { σ with
      events := Function.update σ.events slot σ.stream.record
      pc := .recorded slot raised } where
  done_le := h.done_le
  events_le := fun e => by
    show Function.update σ.events slot σ.stream.record e ≤ σ.stream.log.length
    rw [Function.update_apply]
    split
    · exact Nat.le_refl _
    · exact h.events_le e
  recorded_le := h.recorded_le
  calls := fun c hc => (h.calls c hc).imp id fun hown => ⟨hown.1, rfl⟩
  fenced := fun i c hc hrecorded => by
    have hlt := h.fenced i c hc hrecorded
    refine Nat.lt_of_lt_of_le hlt ?_
    -- the last event waits for at least as much as before
    unfold Sys.fence
    cases σ.lastEv with
    | none => exact Nat.le_refl _
    | some e =>
      show σ.events e ≤ Function.update σ.events slot σ.stream.record e
      rw [Function.update_apply]
      split
      · exact h.events_le e
      · exact Nat.le_refl _
  covered := h.covered
  atPc := by
    have hat := h.atPc
    rw [hpc] at hat
    exact ⟨Function.update_self _ _ _, hat⟩

/-- A statement of the `try` block keeps the invariant. -/
lemma Inv.exec (h : Inv fails σ) {x : StepInput} {slot : ℕ} {stmt : Stmt} (hpc : σ.pc = .inTry x slot stmt)
    (hstmt : stmt ≠ .rest) : Inv fails { σ.exec x slot stmt with pc := .inTry x slot stmt.next } := by
  have hat := h.atPc
  rw [hpc] at hat
  obtain ⟨hfence, hholds, hpending⟩ := hat
  cases stmt with
  | rows =>
    refine h.enqueue rfl rfl ⟨hfence, fun _ => holds_enqueue ⟨σ.call, slot, x⟩ _, fun p hp => ?_⟩
    exact absurd rfl (hpending p hp).2.1
  | counter =>
    refine h.enqueue rfl rfl ⟨hfence, fun _ => (hholds (by decide)).enqueue (fun _ _ => by simp) _,
      fun p hp => ?_⟩
    exact absurd rfl (hpending p hp).2.2.1
  | pending =>
    refine h.goto (Or.inr rfl) ⟨hfence, fun _ => hholds (by decide), fun p hp => ?_⟩
    cases hp
    exact ⟨hholds (by decide), by decide⟩
  | clear =>
    refine h.goto (Or.inr rfl) ⟨hfence, fun _ => hholds (by decide), fun p hp => ?_⟩
    exact ⟨(hpending p hp).1, by decide⟩
  | fill =>
    refine h.goto (Or.inr rfl) ⟨hfence, fun _ => hholds (by decide), fun p hp => ?_⟩
    exact ⟨(hpending p hp).1, by decide⟩
  | upload =>
    refine h.enqueue rfl rfl ⟨hfence, fun _ => (hholds (by decide)).enqueue (fun _ _ => by simp) _,
      fun p hp => ?_⟩
    exact ⟨(hpending p hp).1.enqueue (fun _ _ => by simp) _, by decide⟩
  | rest => exact absurd rfl hstmt

lemma before_of_early {pc : Pc} (h : pc.early = true) : pc.before = true := by
  cases pc with
  | entered | advanced | waited | taken => rfl
  | idle | inTry | leaving | recorded => cases h

/-- A step keeps the invariant. -/
theorem Inv.step {σ' : Sys} (h : Inv fails σ) (hstep : Step fails σ σ') : Inv fails σ' := by
  have hat := h.atPc
  cases hstep with
  | device hdone => exact h.device hdone
  | call x hpc | advance hpc =>
    rw [hpc] at hat
    exact h.goto (Or.inl (by rw [hpc]; rfl)) hat
  | wait hpc hwait =>
    rw [hpc] at hat
    exact h.goto (Or.inl (by rw [hpc]; rfl)) ⟨hwait, hat⟩
  | absorbNone hpc hp =>
    rw [hpc] at hat
    refine h.goto (Or.inl (by rw [hpc]; rfl)) ⟨hat.1, fun hne => absurd rfl hne, fun p hp' => ?_⟩
    rw [hp] at hp'
    cases hp'
  | take hpc hp =>
    rw [hpc] at hat
    exact h.goto (Or.inl (by rw [hpc]; rfl)) ⟨hat.1, rfl, hat.2 _ hp⟩
  | read hpc =>
    rw [hpc] at hat
    refine h.goto (Or.inl (by rw [hpc]; rfl)) ⟨hat.1, fun hne => absurd rfl hne, fun p hp => ?_⟩
    rw [hat.2.1] at hp
    cases hp
  | exec hpc hstmt => exact h.exec hpc hstmt
  | leave hpc =>
    rw [hpc] at hat
    exact h.goto (Or.inr rfl) fun _ p hp => (hat.2.2 p hp).1
  | raiseEarly hpc => exact h.degrade fun _ => before_of_early hpc
  | raiseTry hpc => exact h.goto (Or.inr rfl) fun hno => by cases hno
  | record hpc => exact h.record hpc
  | finish hpc =>
    rw [hpc] at hat
    exact h.finish hpc _ (hat.2 rfl)
  | finishRaised hpc => exact h.finish hpc none fun p hp => by cases hp
  | raiseRecord hfails _ =>
    refine h.degrade fun hno => ?_
    rw [hfails] at hno
    cases hno

/-- The invariant holds in every state of every run. -/
theorem Reach.inv (h : Reach fails σ) : Inv fails σ := by
  induction h with
  | start => exact {
      done_le := Nat.le_refl _
      events_le := fun _ => Nat.le_refl _
      recorded_le := Nat.le_refl _
      calls := fun c hc => by cases hc
      fenced := fun i c hc => by simp [Sys.start, Fifo.empty] at hc
      covered := fun _ c hc => by cases hc
      atPc := fun p hp => by cases hp }
  | step _ hstep ih => exact ih.step hstep

/-! ## The slots -/

/-- The copies of the calls up to the last one that has recorded its event have completed once the host has
waited. -/
lemma Inv.completed (h : Inv fails σ) (hfence : σ.fence ≤ σ.stream.done) {i : ℕ} {c : Copy}
    (hc : σ.stream.log[i]? = some c) (hrecorded : c.call < σ.recorded) : i < σ.stream.done :=
  (h.fenced i c hc hrecorded).trans_le hfence

/-- The host has waited when it accesses a slot. -/
lemma Inv.fence_le (h : Inv fails σ) {slot : ℕ} (haccess : σ.accesses = some slot) :
    σ.fence ≤ σ.stream.done := by
  have hat := h.atPc
  unfold Sys.accesses at haccess
  split at haccess
  case h_6 => cases haccess
  all_goals
    rename_i hpc
    rw [hpc] at hat
    exact hat.1

/-- A snapshot whose copy has completed holds the lengths of its batch. -/
lemma Holds.snapshot {p : Taken} (h : Holds σ p) (hdone : ∀ i < σ.stream.log.length, i < σ.stream.done) :
    σ.snapshot p = p.batch.rowTotals := by
  obtain ⟨before, after, hlog, hafter⟩ := h
  have hlen : p.batch.rowTotals.length = p.batch.ids.length := by
    rw [StepInput.rowTotals, List.length_map, p.batch.idx_length]
  have hcopied : before.length < σ.stream.done := hdone _ (by simp [hlog])
  have hkeep (c : Copy) (hc : c ∈ after) (mem : ℕ → ℕ → ℤ) : Sys.land mem c p.slot = mem p.slot := by
    obtain ⟨call, slot, kind⟩ := c
    cases kind with
    | rows x => exact Function.update_of_ne (fun heq => hafter _ hc heq.symm x rfl) _ _
    | counter | pack => rfl
  obtain ⟨mem, hmem⟩ := Fifo.landed_view Sys.land (fun _ _ => 0) (fun snap => snap p.slot) hlog hcopied
    hkeep
  have hsnap : σ.snap p.slot = fun j =>
      if j < p.batch.rowTotals.length then p.batch.rowTotals.getD j 0 else mem p.slot j := by
    rw [Sys.snap, hmem]
    exact Function.update_self _ _ _
  rw [Sys.snapshot, hsnap, ← hlen]
  refine List.ext_getElem (by simp) fun j hj hj' => ?_
  simp [hj']

/-- A length that `_absorb` finds in a snapshot of a batch is that of a row of the batch. -/
lemma lagged_spec {d : AsyncSuffixDrafter} {p : Taken} (hsnap : d.snap p.slot = p.batch.rowTotals)
    {rid : ReqId} {row : ℕ} {total : ℤ} (h : d.lagged p.pending rid row = some total) :
    ∃ j : ℕ, p.batch.ids[j]? = some rid ∧ p.batch.idx[j]? = some row ∧
      total = p.batch.totals.getD row 0 := by
  unfold AsyncSuffixDrafter.lagged at h
  dsimp only at h
  split at h
  case isFalse => cases h
  case isTrue hcond =>
    obtain ⟨hmem, hrow, _⟩ := hcond
    have hid : p.batch.ids[p.batch.ids.idxOf rid]? = some rid := List.getElem?_idxOf hmem
    have hlt : p.batch.ids.idxOf rid < p.batch.idx.length := by
      rw [p.batch.idx_length]
      exact List.idxOf_lt_length_of_mem hmem
    have hidx : p.batch.idx[p.batch.ids.idxOf rid]? = some row := by
      rw [List.getElem?_eq_getElem hlt, ← hrow]
      simp [Taken.pending, hlt]
    refine ⟨p.batch.ids.idxOf rid, hid, hidx, ?_⟩
    rw [← Option.some.inj h]
    show (d.snap p.slot).getD (p.batch.ids.idxOf rid) 0 = _
    rw [hsnap, StepInput.rowTotals, List.getD_eq_getElem?_getD, List.getElem?_map, hidx]
    rfl

/-- Every call waits for the copies through its slot. Whenever the host reads a snapshot, rewrites the
candidates of a slot or enqueues a copy into its snapshot, the copies through this slot that an earlier call
has enqueued have completed, if this call or a later one has recorded its event; all of them, if no record
raises. When a snapshot is read all copies have completed. It holds the lengths, in the rows that `pending`
names, that its call has found, and `_absorb` returns those. -/
theorem slots_kept_apart (h : Reach fails σ) :
    (∀ slot i c, σ.accesses = some slot → σ.stream.log[i]? = some c → c.slot = slot → c.call ≠ σ.call →
      fails = false ∨ c.call < σ.recorded → i < σ.stream.done) ∧
    ∀ x slot p, σ.pc = .taken x slot p → σ.stream.done = σ.stream.log.length ∧
      σ.snapshot p = p.batch.rowTotals ∧
      ∀ d : AsyncSuffixDrafter, d.pending = some p.pending → d.snap p.slot = σ.snapshot p →
        ∀ e ∈ d.absorb x, x.ids[e.pos]? = some e.rid ∧ ∃ j : ℕ, p.batch.ids[j]? = some e.rid ∧
          p.batch.idx[j]? = some e.row ∧ e.total = p.batch.totals.getD e.row 0 := by
  have hinv := h.inv
  refine ⟨fun slot i c haccess hc _ hother hrecorded => ?_, fun x slot p hpc => ?_⟩
  · refine hinv.completed (hinv.fence_le haccess) hc ?_
    rcases hrecorded with hfails | hlt
    · exact (hinv.covered hfails c (List.mem_of_getElem? hc)).resolve_right hother
    · exact hlt
  · have hat := hinv.atPc
    rw [hpc] at hat
    obtain ⟨hfence, _, hlast, hholds⟩ := hat
    have hall (i : ℕ) (hi : i < σ.stream.log.length) : i < σ.stream.done := by
      have hc := List.getElem?_eq_getElem hi
      refine hinv.completed hfence hc ?_
      rcases hinv.calls _ (List.mem_of_getElem? hc) with hlt | ⟨_, hown⟩
      · rwa [hlast]
      · rw [hpc] at hown
        cases hown
    have hsnapshot := hholds.snapshot hall
    refine ⟨Nat.le_antisymm hinv.done_le (Nat.le_of_not_lt fun hlt => absurd (hall _ hlt) (Nat.lt_irrefl _)),
      hsnapshot, fun d hpending hsnap e he => ?_⟩
    obtain ⟨pd, hpd, hid, hrow, hlag⟩ := AsyncSuffixDrafter.mem_absorb.mp he
    rw [hpending] at hpd
    cases hpd
    exact ⟨hid, lagged_spec (hsnap.trans hsnapshot) hlag⟩

end invariant

/-- A second call reads the snapshot of the first one. -/
theorem slots_kept_apart_second : ∃ σ x slot p, Reach false σ ∧ σ.pc = .taken x slot p ∧
    σ.stream.log.length = 3 ∧ σ.stream.done = 3 ∧ σ.snapshot p = [3] := by
  have h : Reach false .start := .start
  have h := h.step (.call AsyncSuffixDrafter.gained rfl)
  have h := (h.step (.advance rfl)).step (.wait rfl (Nat.le_refl 0))
  have h := h.step (.absorbNone rfl rfl)
  have h := (h.step (.exec rfl (by decide))).step (.exec rfl (by decide))
  have h := (h.step (.exec rfl (by decide))).step (.exec rfl (by decide))
  have h := (h.step (.exec rfl (by decide))).step (.exec rfl (by decide))
  have h := ((h.step (.leave rfl)).step (.record rfl)).step (.finish rfl)
  have h := ((h.step (.device (by decide))).step (.device (by decide))).step (.device (by decide))
  have h := (h.step (.call AsyncSuffixDrafter.gained rfl)).step (.advance rfl)
  have h := (h.step (.wait rfl (by decide))).step (.take rfl rfl)
  obtain ⟨hdone, hsnapshot, _⟩ := (slots_kept_apart h).2 _ _ _ rfl
  exact ⟨_, _, _, _, h, rfl, rfl, hdone, hsnapshot⟩

/-- The copy of the lengths of a call may be in flight when the call enqueues that of the counter. Where the
records of two calls in a row fail, a copy of the first one may be in flight when the third one uses its
slot. -/
theorem slot_in_use :
    (¬ ∀ σ, Reach false σ → ∀ slot i c, σ.accesses = some slot → σ.stream.log[i]? = some c →
      c.slot = slot → i < σ.stream.done) ∧
    ¬ ∀ σ, Reach true σ → ∀ slot i c, σ.accesses = some slot → σ.stream.log[i]? = some c →
      c.slot = slot → c.call ≠ σ.call → i < σ.stream.done := by
  constructor
  · intro hclaim
    have h : Reach false .start := .start
    have h := h.step (.call AsyncSuffixDrafter.gained rfl)
    have h := (h.step (.advance rfl)).step (.wait rfl (Nat.le_refl 0))
    have h := (h.step (.absorbNone rfl rfl)).step (.exec rfl (by decide))
    exact absurd (hclaim _ h 0 0 _ rfl rfl rfl) (Nat.lt_irrefl 0)
  · intro hclaim
    have h : Reach true .start := .start
    have h := h.step (.call AsyncSuffixDrafter.gained rfl)
    have h := (h.step (.advance rfl)).step (.wait rfl (Nat.le_refl 0))
    have h := (h.step (.absorbNone rfl rfl)).step (.exec rfl (by decide))
    have h := (h.step (.raiseTry rfl)).step (.raiseRecord rfl (Or.inl rfl))
    have h := h.step (.call AsyncSuffixDrafter.gained rfl)
    have h := (h.step (.advance rfl)).step (.wait rfl (Nat.le_refl 0))
    have h := (h.step (.absorbNone rfl rfl)).step (.raiseTry rfl)
    have h := h.step (.raiseRecord rfl (Or.inl rfl))
    have h := h.step (.call AsyncSuffixDrafter.gained rfl)
    have h := (h.step (.advance rfl)).step (.wait rfl (Nat.le_refl 0))
    have h := h.step (.absorbNone rfl rfl)
    exact absurd (hclaim _ h 0 0 _ rfl rfl rfl (by decide)) (Nat.lt_irrefl 0)

end SuffixHybrid.AsyncStaging
