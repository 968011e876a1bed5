import Mathlib.Data.List.Basic
import Mathlib.Logic.Function.Basic
import Mathlib.Tactic.Common
import Mathlib.Tactic.Linarith

/-!
# Prefetch rows

`rows_for` cuts spans of memory into rows for the prefetch, each inside of its span (`rowsFor_inside`). The inner
loop ends because each piece takes something off the budget.
-/

namespace SuffixHybrid.Prefetch

/-- An address and a number of bytes. -/
abbrev Span := ℤ × ℤ

/-- `CHUNK`. -/
def CHUNK : ℤ := 131072

/-- `MIN_BYTES`. -/
def MIN_BYTES : ℤ := 4096

/-- `ALIGN`. -/
def ALIGN : ℤ := 16

/-- The loop over the pieces of `[a, b)`: the rows, and what is left of the budget. Without fuel it goes on. -/
def pieces (chunk b : ℤ) : ℕ → ℤ → ℤ → Option (List Span × ℤ)
  | 0, a, left => if MIN_BYTES ≤ b - a ∧ ALIGN ≤ left then none else some ([], left)
  | fuel + 1, a, left =>
    if MIN_BYTES ≤ b - a ∧ ALIGN ≤ left then
      let size := min chunk (min (b - a) (left / ALIGN * ALIGN))
      (pieces chunk b fuel (a + size) (left - size)).map fun p => ((a, size) :: p.1, p.2)
    else some ([], left)

/-- `rows_for`. -/
def rowsFor (chunk : ℤ) : List Span → ℤ → Option (List Span)
  | [], _ => some []
  | (addr, nbytes) :: spans, left => do
    let a := -(-addr / ALIGN) * ALIGN
    let b := (addr + nbytes) / ALIGN * ALIGN
    let (rows, left) ← pieces chunk b left.toNat a left
    if left < ALIGN then some rows else (rowsFor chunk spans left).map (rows ++ ·)

variable {chunk a b left : ℤ}

/-- The fuel suffices, and the pieces lie in the interval. -/
lemma pieces_spec (hchunk : 0 < chunk) {fuel : ℕ} (hfuel : left.toNat ≤ fuel) :
    ∃ rows left', pieces chunk b fuel a left = some (rows, left') ∧
      ∀ r ∈ rows, a ≤ r.1 ∧ 0 < r.2 ∧ r.1 + r.2 ≤ b := by
  induction fuel generalizing a left with
  | zero =>
    have hleft : ¬(MIN_BYTES ≤ b - a ∧ ALIGN ≤ left) := fun h => by
      have h16 : (16 : ℤ) ≤ left := h.2
      omega
    exact ⟨[], left, if_neg hleft, List.forall_mem_nil _⟩
  | succ fuel ih =>
    rw [pieces]
    split_ifs with hgo
    · have hmin : (4096 : ℤ) ≤ b - a := hgo.1
      have hleft : (16 : ℤ) ≤ left := hgo.2
      have hsize : 0 < min chunk (min (b - a) (left / ALIGN * ALIGN)) := by
        change 0 < min chunk (min (b - a) (left / 16 * 16))
        omega
      have hfit : min chunk (min (b - a) (left / ALIGN * ALIGN)) ≤ b - a := by omega
      generalize min chunk (min (b - a) (left / ALIGN * ALIGN)) = size at hsize hfit
      obtain ⟨rows, left', hrun, hrows⟩ := @ih (a + size) (left - size) (by omega)
      refine ⟨(a, size) :: rows, left', by simp only [hrun, Option.map_some], fun r hr => ?_⟩
      obtain rfl | hr := List.mem_cons.mp hr
      · exact ⟨le_rfl, hsize, by omega⟩
      · obtain ⟨hlo, hpos, hhi⟩ := hrows r hr
        exact ⟨by omega, hpos, hhi⟩
    · exact ⟨[], left, rfl, List.forall_mem_nil _⟩

/-- A row of positive size is inside of the span. -/
def InSpan (row span : Span) : Prop := 0 < row.2 ∧ span.1 ≤ row.1 ∧ row.1 + row.2 ≤ span.1 + span.2

/-- The rows end, and each of them is inside of a span. -/
theorem rowsFor_inside (hchunk : 0 < chunk) (spans : List Span) (budget : ℤ) :
    ∃ rows, rowsFor chunk spans budget = some rows ∧ ∀ r ∈ rows, ∃ span ∈ spans, InSpan r span := by
  induction spans generalizing budget with
  | nil => exact ⟨[], rfl, List.forall_mem_nil _⟩
  | cons span spans ih =>
    obtain ⟨addr, nbytes⟩ := span
    obtain ⟨rows, left, hrun, hrows⟩ := @pieces_spec chunk (-(-addr / ALIGN) * ALIGN)
      ((addr + nbytes) / ALIGN * ALIGN) budget hchunk budget.toNat le_rfl
    obtain ⟨rest, hrest, hin⟩ := ih left
    have hfirst : ∀ r ∈ rows, InSpan r (addr, nbytes) := fun r hr => by
      obtain ⟨hlo, hpos, hhi⟩ := hrows r hr
      have hlo : -(-addr / 16) * 16 ≤ r.1 := hlo
      have hhi : r.1 + r.2 ≤ (addr + nbytes) / 16 * 16 := hhi
      refine ⟨hpos, ?_, ?_⟩
      · change addr ≤ r.1
        omega
      · change r.1 + r.2 ≤ addr + nbytes
        omega
    rw [rowsFor]
    simp only [hrun, Option.bind_eq_bind, Option.bind_some, hrest, Option.map_some]
    split_ifs
    · exact ⟨rows, rfl, fun r hr => ⟨_, List.mem_cons_self, hfirst r hr⟩⟩
    · refine ⟨rows ++ rest, rfl, fun r hr => ?_⟩
      obtain hr | hr := List.mem_append.mp hr
      · exact ⟨_, List.mem_cons_self, hfirst r hr⟩
      · obtain ⟨span, hspan, hr⟩ := hin r hr
        exact ⟨span, List.mem_cons_of_mem _ hspan, hr⟩

end SuffixHybrid.Prefetch

/-!
## The prefetch recorder

The recorder learns, for each root and number of tokens, which weights follow each all-reduce of a forward, and
keeps a table of rows for each distinct window. A key whose schedule changes turns unstable. Tables are built and
zeroed behind captures only.
-/

namespace SuffixHybrid.Prefetch

/-! ## State -/

/-- A strided tensor: where its elements are, and the storage under it. -/
structure Tensor where
  device : ℕ
  shape : List ℕ
  stride : List ℤ
  elementSize : ℤ
  dataPtr : ℤ
  base : ℤ
  size : ℤ
deriving DecidableEq

/-- `tensor_span`. -/
def Tensor.span (t : Tensor) : Option Span :=
  if t.shape.prod = 0 ∨ ∃ st ∈ t.stride, st < 0 then none
  else
    let span := (((t.shape.zip t.stride).map fun p => ((p.1 : ℤ) - 1) * p.2).sum + 1) * t.elementSize
    if t.base ≤ t.dataPtr ∧ t.dataPtr + span ≤ t.base + t.size then some (t.dataPtr, span) else none

/-- A window signature: the distinct spans of its tensors. -/
abbrev Sig := List Span

/-- A root and a number of tokens. -/
abbrev Key := ℕ × ℕ

/-- The rows of a table, padding included, and the tensors that it references. -/
structure Table where
  rows : List Span
  tensors : Option (List Tensor)
deriving DecidableEq

/-- The record of a forward. The last window is the open one. -/
structure Cur where
  key : Key
  plan : Option (List Sig)
  closed : List (List Tensor)
  last : List Tensor
  recording : Bool

/-- The recorder. `known` and `built` list the keys that have a schedule and the signatures that have a table. A table
is made once, so `zero` names the rows to be zeroed by their signatures. -/
structure Recorder where
  budget : ℤ
  device : ℕ
  known : List Key
  schedules : Key → Option (List Sig)
  unstable : List Key
  built : List Sig
  tables : Sig → Option Table
  keep : Sig → Option (List Tensor)
  pending : List Sig
  zero : List Sig
  cur : Option Cur
  off : Bool

/-- `MAX_TOKENS`. -/
def MAX_TOKENS : ℕ := 512

/-- `ROW_PAD`. -/
def ROW_PAD : ℕ := 16

/-- The signature of a window: the distinct spans of its tensors on the device. -/
def sigOf (device : ℕ) (tensors : List Tensor) : Sig :=
  tensors.foldl (fun spans t =>
    match if t.device = device then t.span else none with
    | some sp => if spans.contains sp then spans else spans ++ [sp]
    | none => spans) []

/-- The windows after the all-reduces. -/
def Cur.windows (cur : Cur) : List (List Tensor) := (cur.closed ++ [cur.last]).tail

/-- Their signatures. -/
def Cur.sigs (device : ℕ) (cur : Cur) : List Sig := cur.windows.map (sigOf device)

namespace Recorder

/-- A new recorder. -/
def init (budget : ℤ) (device : ℕ) : Recorder where
  budget := budget
  device := device
  known := []
  schedules := fun _ => none
  unstable := []
  built := []
  tables := fun _ => none
  keep := fun _ => none
  pending := []
  zero := []
  cur := none
  off := false

/-! ## Tables -/

/-- `_sig` keeps the first tensors of a signature. -/
def keepWindow (s : Recorder) (tensors : List Tensor) : Recorder :=
  if (s.keep (sigOf s.device tensors)).isNone then
    { s with keep := Function.update s.keep (sigOf s.device tensors) (some tensors) }
  else s

/-- The rows of a window. -/
def windowRows (s : Recorder) (sg : Sig) : List Span := (rowsFor CHUNK sg s.budget).getD []

/-- `make_table`: zero rows up to a multiple of `ROW_PAD`. -/
def makeTable (rows : List Span) : List Span :=
  let cap := max ROW_PAD ((rows.length + (ROW_PAD - 1)) / ROW_PAD * ROW_PAD)
  rows ++ List.replicate (cap - rows.length) (0, 0)

/-- `rows[:, 1].zero_()`. -/
def Table.zeroed (t : Table) : Table := { t with rows := t.rows.map fun r => (r.1, 0) }

/-- One pending signature of `_flush_deferred`. An empty window keeps no table. -/
def build (s : Recorder) (sg : Sig) : Recorder :=
  if (s.tables sg).isNone ∧ s.windowRows sg ≠ [] then
    { s with
      built := s.built ++ [sg]
      tables := Function.update s.tables sg (some ⟨makeTable (s.windowRows sg), s.keep sg⟩) }
  else s

/-- `_flush_deferred`. -/
def flushDeferred (capturing : Bool) (s : Recorder) : Recorder :=
  if capturing then s
  else
    let s := { s with
      tables := fun sg => (s.tables sg).map fun t => if s.zero.contains sg then Table.zeroed t else t
      zero := [] }
    { s.pending.foldl build s with pending := [] }

/-! ## Hooks -/

/-- `_root_pre`, for a forward of `toks` tokens. -/
def rootPre (root : ℕ) (toks : Option ℕ) (capturing : Bool) (s : Recorder) : Recorder :=
  let s := s.flushDeferred capturing
  match toks with
  | none => { s with cur := none }
  | some n =>
    if s.off ∨ MAX_TOKENS < n ∨ s.unstable.contains (root, n) then { s with cur := none }
    else
      let plan := s.schedules (root, n)
      { s with cur := some ⟨(root, n), plan, [], [], plan.isNone || capturing⟩ }

/-- `_collect`, for the tensors that a module adds. -/
def collect (ts : List Tensor) (s : Recorder) : Recorder :=
  match s.cur with
  | none => s
  | some cur => if cur.recording then { s with cur := some { cur with last := cur.last ++ ts } } else s

/-- `on_ar`: the next window opens, and the rows of the one before are looked up in the plan. -/
def onAr (s : Recorder) : Recorder × Option (List Span) :=
  match s.cur with
  | none => (s, none)
  | some cur =>
    let k := cur.closed.length
    let s := { s with cur := some { cur with closed := cur.closed ++ [cur.last], last := [] } }
    if s.off then (s, none)
    else (s, do
      let plan ← cur.plan
      let sg ← plan[k]?
      let tab ← s.tables sg
      some tab.rows)

/-- The windows of the keys that are not unstable. -/
def live (s : Recorder) : List Sig :=
  (s.known.filter fun k => !s.unstable.contains k).flatMap fun k => (s.schedules k).getD []

/-- What `_root_post` does with the windows of a record. -/
def record (key : Key) (got : List Sig) (s : Recorder) : Recorder :=
  match s.schedules key with
  | none =>
    { s with
      known := s.known ++ [key]
      schedules := Function.update s.schedules key (some got)
      pending := s.pending ++ got.filter fun sg => (s.tables sg).isNone }
  | some have_ =>
    if have_ = got then s
    else
      let s := { s with unstable := s.unstable ++ [key] }
      { s with zero := s.zero ++ have_.filter fun sg => (s.tables sg).isSome && !s.live.contains sg }

/-- `_root_post`. -/
def rootPost (capturing : Bool) (s : Recorder) : Recorder :=
  match s.cur with
  | none => { s with cur := none }
  | some cur =>
    let s := { s with cur := none }
    if s.off ∨ ¬cur.recording then s
    else
      ((cur.windows.foldl keepWindow s).record cur.key (cur.sigs s.device)).flushDeferred capturing

/-- `disable`, also for an exception in a hook. -/
def disable (s : Recorder) : Recorder :=
  if s.off then s else { s with off := true, cur := none, zero := s.zero ++ s.built }

/-- What happens to the recorder. -/
inductive Event where
  | pre (root : ℕ) (toks : Option ℕ) (capturing : Bool)
  | collect (ts : List Tensor)
  | ar
  | post (capturing : Bool)
  | disable

/-- One event. -/
def step (s : Recorder) : Event → Recorder
  | .pre root toks capturing => s.rootPre root toks capturing
  | .collect ts => s.collect ts
  | .ar => s.onAr.1
  | .post capturing => s.rootPost capturing
  | .disable => s.disable

/-- The recorder after some events. -/
def run (s : Recorder) (evs : List Event) : Recorder := evs.foldl step s

end Recorder

end SuffixHybrid.Prefetch
