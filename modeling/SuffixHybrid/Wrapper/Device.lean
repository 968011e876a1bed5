import SuffixHybrid.Wrapper.Propose

/-!
# The staging copies

What the fast body of the V2 hybrid wrapper finds in its pinned staging buffers. On CUDA the copies of
`_enqueue` run on a side stream: a copy of a window or of a count reads the token rows of the device at
some moment between its step and the next absorb, which waits for it, and a copy of the verifier's outcome
may or may not have arrived when the mix of its own step reads the buffers. Rows are addressed by slot.
A slot belongs to a request as long as the runner keeps it there.

`Device` is the wrapper with its buffers and the copies under way. A `Tick` is a step of the engine: its
batch, the token rows as they stand in this step, and which copies arrive. `Device.next` derives from it
the step that the wrapper sees, and runs `propose` on it. A buffer that has grown holds arbitrary values.
Beside the buffered outcomes the device keeps the reports that they are from.
-/

namespace SuffixHybrid
open Lib

/-- A row of the token rows on the device, with the request it belongs to, if it is in use. -/
structure DevRow where
  owner : Option ReqId
  tokens : List Token
  total : ℕ

/-- The history in a row of the device. -/
def DevRow.live (r : DevRow) : List Token := r.tokens.take r.total

/-- The copies that a step has enqueued for a row of its batch: the row as the copy of the window and the
copy of the count have found it, `none` as long as they are under way. -/
structure Copy where
  id : ReqId
  slot : ℕ
  start : ℕ
  sampled : ℤ
  rejected : ℤ
  windowRow : Option DevRow
  countRow : Option DevRow

/-- Some of the copies of a row arrive. -/
def Copy.land (mem : ℕ → DevRow) (arrives : Bool × Bool) (c : Copy) : Copy :=
  { c with
    windowRow := if arrives.1 then some (c.windowRow.getD (mem c.slot)) else c.windowRow
    countRow := if arrives.2 then some (c.countRow.getD (mem c.slot)) else c.countRow }

/-- A row of a batch, with its slot and the verifier's outcome. -/
structure TickRow where
  id : ReqId
  slot : ℕ
  native : List Token
  sampled : ℤ
  rejected : ℤ
  greedy : Bool := true

/-- A step of the engine: the batch, the token rows, the copies of the last enqueue that arrive without
being waited for, those of this step that arrive within it, and what a grown buffer holds. -/
structure Tick where
  k : ℕ
  ncols : ℕ
  batch : List TickRow
  order : HashOrder ReqId
  mem : ℕ → DevRow
  arrives : ℕ → Bool × Bool
  within : ℕ → Bool × Bool
  sampledArrives : ℕ → Bool
  rejectedArrives : ℕ → Bool
  grown : Staging
  native_length : ∀ r ∈ batch, r.native.length = k
  tokens_length : ∀ r ∈ batch, (mem r.slot).tokens.length = ncols

/-- The request ids of the batch. -/
def Tick.ids (x : Tick) : List ReqId := x.batch.map (·.id)

/-- The verifier's outcome for a request, as a step reported it. -/
structure Report where
  time : ℕ
  id : ReqId
  sampled : ℤ
  deriving DecidableEq

/-- The wrapper with its staging buffers: their number of rows, what they hold beneath the copies under
way, the reports that the buffered outcomes are from, and the step of the last enqueue with its copies. -/
structure Device where
  wrapper : Wrapper
  time : ℕ
  cap : ℕ
  buffers : Staging
  reports : ℕ → Option Report
  enqueued : ℕ
  copies : List Copy

namespace Device

/-- A wrapper without buffers. -/
def start (mixer : HybridMixer) (k : ℕ) : Device where
  wrapper := .start mixer k
  time := 0
  cap := 0
  buffers := ⟨fun _ _ => 0, fun _ => 0, fun _ => 0, fun _ => 0⟩
  reports := fun _ => none
  enqueued := 0
  copies := []

/-! ## Arrivals -/

/-- Some copies arrive. -/
def arrive (d : Device) (x : Tick) : List Copy :=
  d.copies.mapIdx fun i c => c.land x.mem (x.arrives i)

/-- The copies after `synchronize`, which waits for all of them. -/
def synchronized (d : Device) (x : Tick) : List Copy := d.copies.map (Copy.land x.mem (true, true))

/-- The buffers after `synchronize`. -/
def onEntry (d : Device) (x : Tick) : Staging where
  tail i c := match (d.synchronized x)[i]? with
    | none => d.buffers.tail i c
    | some copy => ((copy.windowRow.map fun row =>
        windowSlice d.wrapper.w row.tokens copy.start).getD [])[c]?.getD (d.buffers.tail i c)
  -- a place beyond the last batch keeps what it held
  count i := (((d.synchronized x)[i]?.bind (·.countRow)).map (·.total)).getD (d.buffers.count i)
  sampled i := (d.copies[i]?.map (·.sampled)).getD (d.buffers.sampled i)
  rejected i := (d.copies[i]?.map (·.rejected)).getD (d.buffers.rejected i)

/-- The reports of the buffered outcomes after `synchronize`. -/
def reportsOnEntry (d : Device) (i : ℕ) : Option Report :=
  match d.copies[i]? with
  | none => d.reports i
  | some copy => some { time := d.enqueued, id := copy.id, sampled := copy.sampled }

/-! ## Enqueuing -/

/-- `_ensure_staging` grows the buffers. -/
def grows (d : Device) (x : Tick) : Bool := d.cap < max x.batch.length 1

/-- The buffers beneath the copies of this step. -/
def beneath (d : Device) (x : Tick) : Staging := if d.grows x then x.grown else d.onEntry x

/-- The reports beneath the copies of this step. -/
def reportsBeneath (d : Device) (x : Tick) (i : ℕ) : Option Report :=
  if d.grows x then none else d.reportsOnEntry i

/-- What the mix finds in the buffers. Only the outcomes are read there. -/
def inFlight (d : Device) (x : Tick) : Staging :=
  { d.beneath x with
    sampled := fun i => if x.sampledArrives i then
      (x.batch[i]?.map (·.sampled)).getD ((d.beneath x).sampled i) else (d.beneath x).sampled i
    rejected := fun i => if x.rejectedArrives i then
      (x.batch[i]?.map (·.rejected)).getD ((d.beneath x).rejected i) else (d.beneath x).rejected i }

/-- The report that the mix finds in the buffer of the sampled counts. -/
def found (d : Device) (x : Tick) (i : ℕ) : Option Report :=
  if x.sampledArrives i then
    match x.batch[i]? with
    | none => d.reportsBeneath x i
    | some r => some { time := d.time, id := r.id, sampled := r.sampled }
  else d.reportsBeneath x i

/-- The step that the wrapper sees. -/
def step (d : Device) (x : Tick) : Step where
  k := x.k
  ncols := x.ncols
  batch := x.batch.map fun r => {
    id := r.id
    tokens := (x.mem r.slot).tokens
    total := (x.mem r.slot).total
    native := r.native
    sampled := r.sampled
    rejected := r.rejected
    greedy := r.greedy }
  order := x.order
  onEntry := d.onEntry x
  inFlight := d.inFlight x
  hook := false
  heard := []
  fast := fun _ => false
  sync := fun _ => false
  native_length := fun r hr => by
    obtain ⟨r', hr', rfl⟩ := List.mem_map.mp hr
    exact x.native_length r' hr'
  tokens_length := fun r hr => by
    obtain ⟨r', hr', rfl⟩ := List.mem_map.mp hr
    exact x.tokens_length r' hr'

/-- The step runs the fast body on the owner and is not frozen, so it absorbs and enqueues. -/
def stages (cfg : WrapSettings) (d : Device) (x : Tick) : Bool :=
  (cfg.rank = 0 || cfg.replay) && d.wrapper.triesFast (d.step x) && !d.wrapper.freezes cfg (d.step x)

/-- The wrapper after the absorb and the enqueue of a step. -/
def prepared (cfg : WrapSettings) (d : Device) (x : Tick) : Wrapper :=
  d.wrapper.prepare cfg (d.step x)

/-- The wrapper whose mirror the mix of a step reads. -/
def drained (cfg : WrapSettings) (d : Device) (x : Tick) : Wrapper :=
  (d.prepared cfg x).drain cfg (d.step x)

/-- The copies that a step enqueues, with those that arrive within it. -/
def enqueue (cfg : WrapSettings) (d : Device) (x : Tick) : List Copy :=
  x.batch.mapIdx fun i r => Copy.land x.mem (x.within i) {
    id := r.id
    slot := r.slot
    start := (((d.prepared cfg x).mirror.lookup r.id).getD []).length
    sampled := r.sampled
    rejected := r.rejected
    windowRow := none
    countRow := none }

/-- The device after a step that leaves the wrapper in a state. -/
def advance (cfg : WrapSettings) (d : Device) (x : Tick) (wrapper : Wrapper) : Device :=
  if d.stages cfg x then
    { wrapper
      time := d.time + 1
      cap := if d.grows x then max (max x.batch.length 1) 8 else d.cap
      buffers := d.beneath x
      reports := d.reportsBeneath x
      enqueued := d.time
      copies := d.enqueue cfg x }
  -- nothing is enqueued, but a copy under way may land
  else { d with wrapper, time := d.time + 1, copies := d.arrive x }

/-- A step of the engine. -/
def next [F64] (cfg : WrapSettings) (d : Device) (x : Tick) : Option Device :=
  (d.wrapper.propose cfg (d.step x)).map fun out => d.advance cfg x out.state

end Device

/-- The mode of the fast path with a mirror that lags: the owner, on CUDA. -/
structure WrapSettings.OnCuda (cfg : WrapSettings) : Prop where
  owner : cfg.rank = 0 ∨ cfg.replay = true
  cuda : cfg.cuda = true

/-- The mode of the asynchronous fast path: the owner, on CUDA, in the legacy split. -/
structure WrapSettings.Async (cfg : WrapSettings) : Prop extends cfg.OnCuda where
  legacy : cfg.splitDiverge = false

end SuffixHybrid
