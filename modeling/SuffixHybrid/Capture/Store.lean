import SuffixHybrid.Lib.Map
import SuffixHybrid.Lib.Run

/-!
# The capture store

`enqueue` stages the rows of a step in one of two slots and reserves a stretch of the arena for them, `flush`
issues the copies of the slot to the arena, `absorb` joins the rows of every slot whose copies are done, and
`depart` finishes the requests that have left the batch. On the GPU the copies are on a stream: they are carried
out one by one, in the order in which they were issued (`complete`).
-/

namespace SuffixHybrid.Capture
open Lib

variable {H R : Type} [DecidableEq R]

/-! ## Arena -/

/-- What is captured of a row. -/
structure Row (H : Type) where
  h : H
  tok : ℤ
  pos : ℤ
deriving DecidableEq

/-- `Arena`: a ring of rows. -/
structure Arena (H : Type) where
  cap : ℕ
  written : ℕ
  h : ℕ → H
  tok : ℕ → ℤ
  pos : ℕ → ℤ
  d1 : ℕ → ℤ

namespace Arena

/-- `reserve`. -/
def reserve (a : Arena H) (n : ℕ) : Option (ℕ × Arena H) :=
  if n > a.cap then none
  else
    let s := a.written % a.cap
    let start := if s + n > a.cap then a.written + (a.cap - s) else a.written
    let i := start % a.cap
    some (start, { a with
      written := start + n
      d1 := fun x => if i ≤ x ∧ x < i + n then -1 else a.d1 x })

/-- `alive`. -/
def Alive (a : Arena H) (counter : ℕ) : Prop := (counter : ℤ) ≥ a.written - a.cap

instance (a : Arena H) (counter : ℕ) : Decidable (a.Alive counter) := inferInstanceAs (Decidable (_ ≥ _))

end Arena

/-! ## Store -/

/-- The settings of a store. A window has at least one anchor: without one the loop over the full windows does not
end. -/
structure Config (R : Type) where
  k : ℕ
  window : ℕ
  ctx : ℕ
  minRows : ℕ
  maxRows : ℕ
  cuda : Bool
  selected : R → Bool
  heldout : R → Bool
  window_pos : 0 < window

/-- `L`. -/
def Config.L (cfg : Config R) : ℕ := cfg.window + cfg.k + 1

/-- `min_rows`. -/
def Config.least (cfg : Config R) : ℕ := max cfg.minRows (cfg.k + 3)

/-- The rows of a request in a slot. -/
structure Entry (R : Type) where
  rid : R
  i : ℕ
  off : ℕ
  rows : ℕ
  plen : ℤ
deriving DecidableEq

/-- A slot: the device buffers, the pinned ones, the event and what is staged. -/
structure Slot (H R : Type) where
  h : ℕ → H
  tok : ℕ → ℤ
  pos : ℕ → ℤ
  rejD : ℕ → ℤ
  rej : ℕ → ℤ
  d1D : ℕ → ℤ
  d1 : ℕ → ℤ
  ev : Option Bool
  entries : List (Entry R)
  start : ℕ
  total : ℕ

/-- The destinations of the copies of a slot, and the event behind them. -/
inductive Field where
  | h
  | tok
  | pos
  | rej
  | d1
  | ev
deriving DecidableEq

/-- A copy that is issued: the slot, the stretch of the arena and the number of entries. -/
structure Copy where
  slot : Bool
  dst : ℕ
  n : ℕ
  m : ℕ
  field : Field
deriving DecidableEq

/-- `_Req`. -/
structure Req where
  rows : List ℕ
  nextPos : Option ℤ
  plen : ℤ
deriving DecidableEq

/-- The record of a window. -/
structure Window (R : Type) where
  rows : List ℕ
  plen : ℤ
  rid : R
deriving DecidableEq

/-- The store. The last five fields are its history: the reservations, the row that was staged for each counter with
its request, the draft that was noted for it, the windows that were emitted, and the slots that wait for their
`flush`. -/
structure State (H R : Type) [DecidableEq R] where
  arena : Arena H
  slots : Bool → Slot H R
  free : List Bool
  inflight : List Bool
  copies : List Copy
  reqs : Map R Req
  train : List (Window R)
  held : List (Window R)
  reserved : List (ℕ × ℕ)
  captured : ℕ → Option (R × Row H)
  drafted : ℕ → ℤ
  emitted : List (Window R)
  staged : List Bool

/-- The batch of a step: `query_start_loc`, the computed and the prefill lengths, the rows, and how many of each
request's tokens were rejected. -/
structure Batch (H R : Type) where
  reqIds : List R
  queryStart : ℕ → ℕ
  computed : ℕ → ℤ
  prefillLen : ℕ → ℤ
  hidden : ℕ → H
  inputIds : ℕ → ℤ
  positions : ℕ → ℤ
  numRejected : ℕ → ℤ

namespace State
variable (cfg : Config R)

/-! ## Windows -/

/-- The windows behind the dead ones. -/
def evict (a : Arena H) (dq : List (Window R)) : List (Window R) :=
  dq.dropWhile fun w => ¬a.Alive (w.rows.headD 0)

/-- `_emit`. -/
def emit (s : State H R) (rid : R) (rows : List ℕ) (plen : ℤ) (final : Bool) : State H R :=
  if rows.length < (if final then cfg.least else cfg.L) then s
  else
    let w : Window R := ⟨rows, plen, rid⟩
    let s := { s with emitted := s.emitted ++ [w] }
    if cfg.heldout rid then { s with held := evict s.arena (s.held ++ [w]) }
    else { s with train := evict s.arena (s.train ++ [w]) }

/-- The loop over the full windows, with the rows that it leaves. -/
def emitFull (s : State H R) (rid : R) (plen : ℤ) (rows : List ℕ) : State H R × List ℕ :=
  if cfg.L ≤ rows.length then
    emitFull (emit cfg s rid (rows.take cfg.L) plen false) rid plen (rows.drop (cfg.L - (cfg.k + 1)))
  else (s, rows)
termination_by rows.length
decreasing_by
  have hpos := cfg.window_pos
  rw [List.length_drop]
  simp only [Config.L] at *
  omega

/-- `_append`. -/
def append (s : State H R) (rid : R) (plen : ℤ) (c0 n : ℕ) : State H R :=
  let first := s.arena.pos (c0 % s.arena.cap)
  let (s, r) := match s.reqs.lookup rid with
    | none => (s, ({ rows := [], nextPos := none, plen := plen } : Req))
    | some r =>
      if r.nextPos ≠ some first then
        (emit cfg s rid r.rows r.plen true, { rows := [], nextPos := none, plen := plen })
      else (s, r)
  let (s, rows) := emitFull cfg s rid r.plen (r.rows ++ List.range' c0 n)
  { s with reqs := s.reqs.put rid { r with rows := rows, nextPos := some (first + n) } }

/-! ## Slots -/

/-- A slot is changed. -/
def setSlot (s : State H R) (i : Bool) (f : Slot H R → Slot H R) : State H R :=
  { s with slots := Function.update s.slots i (f (s.slots i)) }

/-- The loop of `enqueue` over the requests: the entries, the rows of the batch and their number. -/
def gather (b : Batch H R) : List (Entry R) × List ℕ × ℕ :=
  b.reqIds.zipIdx.foldl (fun acc p =>
    if cfg.selected p.1 = false then acc
    else
      let qs : ℤ := b.queryStart p.2
      let qe : ℤ := b.queryStart (p.2 + 1)
      let skip := max 0 (min (qe - qs) (b.prefillLen p.2 - cfg.ctx - b.computed p.2))
      let rows := qe - qs - skip
      if rows ≤ 0 then acc
      else if acc.2.2 + rows > cfg.maxRows then acc
      else (acc.1 ++ [⟨p.1, p.2, acc.2.2, rows.toNat, b.prefillLen p.2⟩],
        acc.2.1 ++ List.range' (qs + skip).toNat rows.toNat, acc.2.2 + rows.toNat)) ([], [], 0)

/-- What `enqueue` stages for a counter: the row, with the request of the entry it is in. -/
def stagedRow (b : Batch H R) (entries : List (Entry R)) (src : List ℕ) (t : ℕ) : Option (R × Row H) :=
  (entries.find? fun e => e.off ≤ t ∧ t < e.off + e.rows).map fun e =>
    (e.rid, ⟨b.hidden (src.getD t 0), b.inputIds (src.getD t 0), b.positions (src.getD t 0)⟩)

/-- `enqueue`. -/
def enqueue (s : State H R) (b : Batch H R) : State H R :=
  let (entries, src, total) := gather cfg b
  if entries = [] then s
  else
    match s.free.getLast? with
    | none => s
    | some i =>
      match s.arena.reserve total with
      | none => s
      | some (start, arena) =>
        let sel := entries.map fun e => e.i
        let s := s.setSlot i fun slot => { slot with
          entries := entries
          start := start
          total := total
          h := fun t => if t < total then b.hidden (src.getD t 0) else slot.h t
          tok := fun t => if t < total then b.inputIds (src.getD t 0) else slot.tok t
          pos := fun t => if t < total then b.positions (src.getD t 0) else slot.pos t
          rejD := fun j => if j < sel.length then b.numRejected (sel.getD j 0) else slot.rejD j
          d1D := fun j => if j < sel.length then -1 else slot.d1D j }
        { s with
          arena := arena
          free := s.free.dropLast
          inflight := s.inflight ++ [i]
          reserved := s.reserved ++ [(start, total)]
          captured := fun c => if start ≤ c ∧ c < start + total then stagedRow b entries src (c - start) else s.captured c
          drafted := fun c => if start ≤ c ∧ c < start + total then -1 else s.drafted c
          staged := s.staged ++ [i] }

/-- `enqueue_drafts`: the first drafts of the requests of the batch. -/
def enqueueDrafts (s : State H R) (i : Bool) (drafts : ℕ → ℤ) : State H R :=
  s.setSlot i fun slot =>
    { slot with d1D := fun j => if j < slot.entries.length then drafts ((slot.entries.map fun e => e.i).getD j 0) else slot.d1D j }

/-- A copy is carried out. -/
def copy (s : State H R) (c : Copy) : State H R :=
  let slot := s.slots c.slot
  let a := s.arena
  match c.field with
  | .h => { s with arena := { a with h := fun x => if c.dst ≤ x ∧ x < c.dst + c.n then slot.h (x - c.dst) else a.h x } }
  | .tok =>
    { s with arena := { a with tok := fun x => if c.dst ≤ x ∧ x < c.dst + c.n then slot.tok (x - c.dst) else a.tok x } }
  | .pos =>
    { s with arena := { a with pos := fun x => if c.dst ≤ x ∧ x < c.dst + c.n then slot.pos (x - c.dst) else a.pos x } }
  | .rej => s.setSlot c.slot fun slot => { slot with rej := fun j => if j < c.m then slot.rejD j else slot.rej j }
  | .d1 => s.setSlot c.slot fun slot => { slot with d1 := fun j => if j < c.m then slot.d1D j else slot.d1 j }
  | .ev => s.setSlot c.slot fun slot => { slot with ev := some true }

/-- The copy of a field of a slot. -/
def copyOf (s : State H R) (i : Bool) (f : Field) : Copy :=
  ⟨i, (s.slots i).start % s.arena.cap, (s.slots i).total, (s.slots i).entries.length, f⟩

/-- `pairs`. -/
def pairs (s : State H R) (i : Bool) : List Copy := [.h, .tok, .pos, .rej, .d1].map (s.copyOf i)

/-- `flush`. -/
def flush (s : State H R) (i : Bool) : State H R :=
  let s := { s with staged := s.staged.erase i }
  if cfg.cuda = false then (s.pairs i).foldl copy s
  else
    let s := { s with copies := s.copies ++ s.pairs i ++ [s.copyOf i .ev] }
    s.setSlot i fun slot => { slot with ev := some false }

/-- The body of the loop of `absorb` over the entries. -/
def joinEntry (slot : Slot H R) (s : State H R) (p : Entry R × ℕ) : State H R :=
  let valid := (max 0 (p.1.rows - slot.rej p.2)).toNat
  if valid = 0 then s
  else
    let c0 := slot.start + p.1.off
    let d1 := slot.d1 p.2
    let x := (c0 + valid - 1) % s.arena.cap
    let s := if d1 ≥ 0 then
        { s with
          arena := { s.arena with d1 := Function.update s.arena.d1 x d1 }
          drafted := Function.update s.drafted (c0 + valid - 1) d1 }
      else s
    append cfg s p.1.rid p.1.plen c0 valid

/-- The body of the loop of `absorb` over the slots. -/
def join (s : State H R) (i : Bool) (rest : List Bool) : State H R :=
  let slot := s.slots i
  let s := { s with inflight := rest }
  let s := if s.arena.Alive slot.start then slot.entries.zipIdx.foldl (joinEntry cfg slot) s else s
  let s := s.setSlot i fun slot => { slot with ev := none }
  { s with free := s.free ++ [i] }

/-- The loop of `absorb`. -/
def absorbFrom : List Bool → State H R → State H R
  | [], s => s
  | i :: rest, s => if (s.slots i).ev = some false then s else absorbFrom rest (join cfg s i rest)

/-- `absorb`. -/
def absorb (s : State H R) : State H R := absorbFrom cfg s.inflight s

/-- `depart`. -/
def depart (s : State H R) (liveIds : List R) : State H R :=
  let live := liveIds ++ s.inflight.flatMap fun i => (s.slots i).entries.map fun e => e.rid
  (s.reqs.keys.reverse.filter fun rid => rid ∉ live).foldl (fun s rid =>
    match s.reqs.lookup rid with
    | none => s
    | some r => emit cfg { s with reqs := s.reqs.erase rid } rid r.rows r.plen true) s

/-- What `materialize` returns. -/
structure Sample (H R : Type) where
  h : List H
  tok : List ℤ
  pos : List ℤ
  d1 : List ℤ
  anchor : List Bool
  rid : R
deriving DecidableEq

/-- `materialize`. -/
def materialize (s : State H R) (w : Window R) : Option (Sample H R) :=
  if s.arena.Alive (w.rows.headD 0) then
    let i := w.rows.map (· % s.arena.cap)
    some
      { h := i.map s.arena.h
        tok := i.map s.arena.tok
        pos := i.map s.arena.pos
        d1 := i.map s.arena.d1
        anchor := i.map fun x => s.arena.pos x ≥ w.plen - 1
        rid := w.rid }
  else none

/-! ## Runs -/

/-- What happens to a store. -/
inductive Op (H R : Type) where
  | enqueue (b : Batch H R)
  | drafts (i : Bool) (drafts : ℕ → ℤ)
  | flush (i : Bool)
  | complete
  | absorb
  | depart (liveIds : List R)

/-- One step; without a copy in flight none completes. -/
def step (s : State H R) : Op H R → Option (State H R)
  | .enqueue b => some (s.enqueue cfg b)
  | .drafts i d => some (s.enqueueDrafts i d)
  | .flush i => some (s.flush cfg i)
  | .complete =>
    match s.copies with
    | [] => none
    | c :: copies => some ({ s with copies := copies }.copy c)
  | .absorb => some (s.absorb cfg)
  | .depart liveIds => some (s.depart cfg liveIds)

end State

/-- A new store, over memory that `torch.empty` gives. -/
def State.init (cap : ℕ) (mem : Slot H R) : State H R where
  arena := { cap := cap, written := 0, h := mem.h, tok := mem.tok, pos := mem.pos, d1 := fun _ => -1 }
  slots := fun _ => { mem with ev := none, entries := [], start := 0, total := 0 }
  free := [false, true]
  inflight := []
  copies := []
  reqs := ∅
  train := []
  held := []
  reserved := []
  captured := fun _ => none
  drafted := fun _ => -1
  emitted := []
  staged := []

end SuffixHybrid.Capture
