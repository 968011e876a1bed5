import Mathlib.Data.List.Perm.Basic
import Mathlib.Data.List.Sort
import Mathlib.Tactic.Common

/-!
# The HiSparse residency resolver

`reference_resolve` of `own_resolver.py` and the kernel `suffix_hisparse_invalidate`. A state row has a
hot region of `hot` slots. `device_global_indices` says which host row a slot holds, `lru_slots` lists the
slots from the least to the most recently used one. A step resolves the runs of equal request ids one by
one: host rows that are resident hit, the others take the oldest slots that the run does not use and are
swapped in.

Tensors are functions and lists. A table is read as a function, so an index outside of it gives some value
and no error. `resolve` is `none` where the source raises otherwise: an eviction beyond the evictable
slots, or a row without a slot. Entries of the outputs that are not written stay `-9`.
-/

namespace SuffixHybrid.HiSparse

/-- A block table. -/
structure BlockTable where
  rows : ℕ
  cols : ℕ
  get : ℕ → ℕ → ℤ

/-- The arguments of a step: the top-k indices of every row, the request ids of the rows, the state rows of
the requests, and the tables. -/
structure Launch where
  topK : ℕ
  gidx : List (List ℤ)
  requestIds : List ℤ
  stateIdx : List ℤ
  hotBt : ℤ → ℕ → ℤ
  hotBs : ℕ
  srcBt : BlockTable
  srcBs : ℕ
  resBt : Option BlockTable
  resBs : ℕ
  resNull : ℤ
  hostRows : ℤ
  attnBlockStride : ℤ

/-- The residency store. -/
structure Store where
  hot : ℕ
  dgi : ℕ → List ℤ
  lru : ℕ → List ℤ

/-- The outputs of a step: by row and column, by row, and by flat position. -/
structure Out where
  hot : ℕ → ℕ → ℤ
  attn : ℕ → ℕ → ℤ
  valid : ℕ → ℤ
  swapCnt : ℕ → ℤ
  swapHost : ℕ → ℤ
  swapDev : ℕ → ℤ
  hits : ℕ
  misses : ℕ

/-- The outputs before a step. -/
def Out.empty : Out :=
  ⟨fun _ _ => -9, fun _ _ => -9, fun _ => -9, fun _ => -9, fun _ => -9, fun _ => -9, 0, 0⟩

/-- Rows `row` to `stop` of a launch, which have the same request id. -/
structure Run where
  row : ℕ
  stop : ℕ
  rid : ℤ
  deriving DecidableEq

/-- The runs of equal ids, from row `row` on. -/
def runsFrom : ℕ → List ℤ → List Run
  | _, [] => []
  | row, id :: ids =>
    match runsFrom (row + 1) ids with
    | [] => [⟨row, row + 1, id⟩]
    | r :: rs => if r.rid = id then ⟨row, r.stop, id⟩ :: rs else ⟨row, row + 1, id⟩ :: r :: rs

/-- Where a host row of a run is: in the slot that held it, in the slot it is swapped into, or nowhere. -/
inductive Placement where
  | hit (slot : ℤ)
  | miss (slot : ℤ)
  | invalid
  deriving DecidableEq

/-- What the walk over the slots in LRU order finds. `slotOf` is a dictionary, the last entry first. -/
structure Walk where
  slotOf : List (ℤ × Placement)
  hits : List ℤ
  evict : List ℤ

/-- `first.setdefault` over the references of a run. -/
def firsts (refs : List (ℕ × ℤ)) : List (ℤ × ℕ) :=
  refs.foldl (fun first e => if (first.lookup e.2).isSome then first else first ++ [(e.2, e.1)]) []

/-- The order of pairs. -/
def lexLe (a b : ℕ × ℤ) : Prop := a.1 < b.1 ∨ a.1 = b.1 ∧ a.2 ≤ b.2

instance (a b : ℕ × ℤ) : Decidable (lexLe a b) := inferInstanceAs (Decidable (_ ∨ _))

namespace Launch

/-- `attn_of`. -/
def attnOf (L : Launch) (p : ℤ) : ℤ :=
  if p < 0 then -1 else p / L.hotBs * L.attnBlockStride + p % L.hotBs

/-- The physical row of a slot. -/
def physical (L : Launch) (rid slot : ℤ) : ℤ :=
  L.hotBt rid (slot / L.hotBs).toNat * L.hotBs + slot % L.hotBs

/-- The state row of a request, `-1` for padding. -/
def stateOf (L : Launch) (rid : ℤ) : ℤ :=
  if 0 ≤ rid ∧ rid < L.stateIdx.length then L.stateIdx.getD rid.toNat (-1) else -1

/-- The host row of a token of a request. -/
def hostRow (L : Launch) (rid t : ℤ) : ℤ :=
  let tp := max t 0
  let sb := if t ≥ 0 then tp / L.srcBs else -1
  let ok := 0 ≤ rid ∧ rid < L.srcBt.rows ∧ sb ≥ 0 ∧ sb < L.srcBt.cols
  let pb := if ok then L.srcBt.get rid.toNat sb.toNat else 0
  let g := if ok ∧ pb > 0 then pb * L.srcBs + tp % L.srcBs else -1
  if g ≥ L.hostRows then -1 else g

/-- The resident row of a token of a state row. -/
def residentRow (L : Launch) (st : ℕ) (t : ℤ) : ℤ :=
  match L.resBt with
  | none => -1
  | some table =>
    let tp := max t 0
    let rb := if t ≥ 0 then tp / L.resBs else -1
    let ok := st < table.rows ∧ rb ≥ 0 ∧ rb < table.cols
    let prb := if ok then table.get st rb.toNat else -1
    if ok ∧ prb ≠ L.resNull ∧ prb ≥ 0 then prb * L.resBs + tp % L.resBs else -1

/-- The tokens of a run with their positions. -/
def tokens (L : Launch) (r : Run) : List (ℤ × ℕ) :=
  (((L.gidx.drop r.row).take (r.stop - r.row)).flatten).zipIdx

/-- The row and the column of a position. -/
def place (L : Launch) (r : Run) (p : ℕ) : ℕ × ℕ := (r.row + p / L.topK, p % L.topK)

/-- The host references of a run, in (row, top-k) order. -/
def refs (L : Launch) (r : Run) (st : ℕ) : List (ℕ × ℤ) :=
  (L.tokens r).filterMap fun e =>
    if L.residentRow st e.1 ≥ 0 ∨ L.hostRow r.rid e.1 < 0 then none else some (e.2, L.hostRow r.rid e.1)

/-- The number of valid entries of a row. -/
def validCount (L : Launch) (r : Run) (st row : ℕ) : ℤ :=
  (L.gidx.getD row []).countP fun t => L.residentRow st t ≥ 0 ∨ L.hostRow r.rid t ≥ 0

end Launch

namespace Out

/-- Write the physical row of a position. -/
def write (L : Launch) (r : Run) (o : Out) (p : ℕ) (phys : ℤ) : Out :=
  let e := L.place r p
  { o with
    hot := Function.update o.hot e.1 (Function.update (o.hot e.1) e.2 phys)
    attn := Function.update o.attn e.1 (Function.update (o.attn e.1) e.2 (L.attnOf phys)) }

/-- Write a value to the rows of a run. -/
def fill {α : Type} (f : ℕ → α) (r : Run) (v : ℕ → α) (row : ℕ) : α :=
  if r.row ≤ row ∧ row < r.stop then v row else f row

/-- The rows of padding. -/
def pad (L : Launch) (o : Out) (r : Run) : Out :=
  let masked (f : ℕ → ℕ → ℤ) := fill f r fun row i => if i < L.topK then -1 else f row i
  { o with
    hot := masked o.hot
    attn := masked o.attn
    valid := fill o.valid r fun _ => 0
    swapCnt := fill o.swapCnt r fun _ => 0 }

/-- Write the entries of a run that are no host references. -/
def writeResident (L : Launch) (r : Run) (st : ℕ) (o : Out) : Out :=
  (L.tokens r).foldl (fun o e =>
    if L.residentRow st e.1 ≥ 0 then o.write L r e.2 (L.residentRow st e.1)
    else if L.hostRow r.rid e.1 < 0 then o.write L r e.2 (-1)
    else o) o

end Out

namespace Run

/-- One slot of the walk. -/
def walkSlot (hot : ℕ) (dgi : List ℤ) (first : List (ℤ × ℕ)) (w : Walk) (s : ℤ) : Walk :=
  let c := if 0 ≤ s ∧ s < hot then dgi.getD s.toNat (-1) else -1
  if c ≥ 0 ∧ (first.lookup c).isSome then
    { w with slotOf := (c, .hit s) :: w.slotOf, hits := w.hits ++ [s] }
  else { w with evict := w.evict ++ [s] }

/-- The walk over the slots in LRU order. -/
def walk (hot : ℕ) (dgi lru : List ℤ) (first : List (ℤ × ℕ)) : Walk :=
  lru.foldl (walkSlot hot dgi first) ⟨[], [], []⟩

/-- The host rows that no slot holds, by their first positions. -/
def missesOf (first : List (ℤ × ℕ)) (w : Walk) : List (ℕ × ℤ) :=
  ((first.filter fun e => (w.slotOf.lookup e.1).isNone).map Prod.swap).insertionSort lexLe

/-- Swap a missing host row into the oldest evictable slot that is left. -/
def swapIn (L : Launch) (hot : ℕ) (r : Run) (evict : List ℤ)
    (acc : Out × List (ℤ × Placement) × List ℤ) (e : (ℕ × ℤ) × ℕ) :
    Option (Out × List (ℤ × Placement) × List ℤ) := do
  let (o, slotOf, dgi) := acc
  let s ← evict[e.2]?
  let flat := r.row * L.topK + e.2
  let o := { o with swapHost := Function.update o.swapHost flat e.1.2 }
  if 0 ≤ s ∧ s < hot then
    some ({ o with swapDev := Function.update o.swapDev flat (L.physical r.rid s) },
      (e.1.2, .miss s) :: slotOf, dgi.set s.toNat e.1.2)
  else
    some ({ o with swapDev := Function.update o.swapDev flat (-1) }, (e.1.2, .invalid) :: slotOf, dgi)

/-- Write a host reference. -/
def writeRef (L : Launch) (r : Run) (slotOf : List (ℤ × Placement)) (loads : List ℕ) (o : Out)
    (e : ℕ × ℤ) : Option Out := do
  match ← slotOf.lookup e.2 with
  | .invalid => some (o.write L r e.1 (-1))
  | .hit s =>
    let o := o.write L r e.1 (L.physical r.rid s)
    some { o with hits := o.hits + 1 }
  | .miss s =>
    let o := o.write L r e.1 (L.physical r.rid s)
    if e.1 ∈ loads then some { o with misses := o.misses + 1 }
    else some { o with hits := o.hits + 1 }

/-- The number of misses that are left for a row. -/
def swapCount (L : Launch) (r : Run) (misses row : ℕ) : ℤ :=
  max 0 (min (L.topK : ℤ) (misses - (row - r.row : ℤ) * L.topK))

/-- The body of `reference_resolve` for the host references of one run, from the walk on. -/
def resolveRefs (L : Launch) (r : Run) (st : ℕ) (refs : List (ℕ × ℤ)) (o : Out) (s : Store) :
    Option (Out × Store) := do
  let first := firsts refs
  let w := walk s.hot (s.dgi st) (s.lru st) first
  let misses := missesOf first w
  let (o, slotOf, dgi) ← misses.zipIdx.foldlM (swapIn L s.hot r w.evict) (o, w.slotOf, s.dgi st)
  let o ← refs.foldlM (writeRef L r slotOf (misses.map Prod.fst)) o
  let lru := w.evict.drop misses.length ++ w.evict.take misses.length ++ w.hits
  some ({ o with swapCnt := Out.fill o.swapCnt r (swapCount L r misses.length) },
    { s with dgi := Function.update s.dgi st dgi, lru := Function.update s.lru st lru })

/-- The body of `reference_resolve` for one run. -/
def resolve (L : Launch) (acc : Out × Store) (r : Run) : Option (Out × Store) :=
  let (o, s) := acc
  if L.stateOf r.rid < 0 then some (o.pad L r, s)
  else
    let st := (L.stateOf r.rid).toNat
    let o := { o with valid := Out.fill o.valid r (L.validCount r st) }
    let o := o.writeResident L r st
    if firsts (L.refs r st) = [] then some ({ o with swapCnt := Out.fill o.swapCnt r fun _ => 0 }, s)
    else resolveRefs L r st (L.refs r st) o s

end Run

/-- The runs of a launch. -/
def Launch.runs (L : Launch) : List Run := runsFrom 0 L.requestIds

/-- `reference_resolve`. -/
def Launch.resolve (L : Launch) (s : Store) : Option (Out × Store) :=
  L.runs.foldlM (Run.resolve L) (Out.empty, s)

/-! ## Invalidation -/

/-- The arguments of an invalidation: for every written token its request and the slot of the host cache
that it was written to. -/
structure Invalidation where
  stateIdx : List ℤ
  numStateRows : ℕ
  reqIdPerToken : List ℤ
  writtenSlots : List ℤ

namespace Invalidation

/-- The state row and the written slot of a token, if it is one of a tracked request. -/
def target (I : Invalidation) (token : ℕ) : Option (ℕ × ℤ) := do
  let req ← I.reqIdPerToken[token]?
  if req < 0 ∨ req ≥ I.stateIdx.length then none
  else do
    let st ← I.stateIdx[req.toNat]?
    let written ← I.writtenSlots[token]?
    if st < 0 ∨ st ≥ I.numStateRows ∨ written < 0 then none else some (st.toNat, written)

/-- The entries of a chunk of 1024 that hold the written slot are dropped. -/
def dropChunk (row : List ℤ) (chunk : ℕ) (written : ℤ) : List ℤ :=
  row.mapIdx fun offset v =>
    if chunk * 1024 ≤ offset ∧ offset < chunk * 1024 + 1024 ∧ v = written then -1 else v

/-- The block of a token and a chunk. -/
def block (I : Invalidation) (s : Store) (b : ℕ × ℕ) : Store :=
  match I.target b.1 with
  | none => s
  | some (st, written) =>
    { s with dgi := Function.update s.dgi st (dropChunk (s.dgi st) b.2 written) }

/-- The blocks of the launch. -/
def blocks (I : Invalidation) (hot : ℕ) : List (ℕ × ℕ) :=
  (List.range I.writtenSlots.length).product (List.range ((hot + 1023) / 1024))

/-- `suffix_hisparse_invalidate`, with its blocks in some order. -/
def run (I : Invalidation) (order : List (ℕ × ℕ)) (s : Store) : Store := order.foldl I.block s

end Invalidation

/-- What happens to the store: a step, or an invalidation whose blocks run in some order. -/
inductive Op where
  | resolve (L : Launch)
  | invalidate (I : Invalidation) (order : List (ℕ × ℕ))

/-- The store after an operation. -/
def Store.op (s : Store) : Op → Option Store
  | .resolve L => (L.resolve s).map Prod.snd
  | .invalidate I order => some (I.run order s)

end SuffixHybrid.HiSparse
