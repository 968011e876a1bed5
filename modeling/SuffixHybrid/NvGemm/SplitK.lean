import SuffixHybrid.Lib.Grid
import SuffixHybrid.Lib.Ticket

/-!
# The split-K reduction of the fused GEMM

`gemm_fused` with `FUSE_REDUCE`: every block of a column tile stores its partial sums, draws a ticket, and the
block with the last ticket adds the partial sums of all splits. A thread runs from one barrier to the next in
one step, and the threads and blocks in any order: between two barriers no thread reads what another writes to
shared memory. What a thread reads of other threads' stores to the workspace is certain only where a chain of
fences, barriers and tickets leads from the store to the read; otherwise the read may give anything. Indices
are natural numbers, and the output is by row and column.
-/

namespace SuffixHybrid.NvGemm
open Lib

/-! ## Launch -/

/-- A launch: grid, sizes, the row tiles `MT`, the staging chunk, the accumulators of the `k` loop and
`f32_to_bf16` of a sum times alpha. The host asks for `N % 16 = 0`, takes `MT` from `M` and `ch` from the
splits. -/
structure Launch (F B : Type) where
  gridX : ℕ
  S : ℕ
  M : ℕ
  N : ℕ
  MT : ℕ
  ch : ℕ
  c : ℕ → ℕ → ℕ → F
  toBf16 : F → B
  two_le : 2 ≤ S
  rows : M ≤ 16 * MT
  cols : N % 16 = 0
  ch_pos : 1 ≤ ch
  ch_le : ch ≤ S

namespace Launch
variable {F B : Type} (L : Launch F B)

/-- The place of a partial sum. -/
def addr (s row col : ℕ) : ℕ := (s * L.M + row) * L.N + col

/-- `store_tile`: the elements that a thread of a block of column tile `x` stores. -/
def cells (x : ℕ) (tid : Fin 128) : List (ℕ × ℕ) :=
  let n0 := x * 32 + tid.val / 32 * 8
  let g := tid.val % 32 / 4
  let col := n0 + 2 * (tid.val % 32 % 4)
  if n0 < L.N then
    (List.range L.MT).flatMap fun I => [16 * I + g, 16 * I + g + 8].flatMap fun row =>
      if row < L.M then [(row, col), (row, col + 1)] else []
  else []

/-- Their places. -/
def mine (x s : ℕ) (tid : Fin 128) : Set ℕ := {a | ∃ e ∈ L.cells x tid, L.addr s e.1 e.2 = a}

/-- The stores of a thread. -/
def stores (x s : ℕ) (tid : Fin 128) : List (ℕ × F) :=
  (L.cells x tid).map fun e => (L.addr s e.1 e.2, L.c s e.1 e.2)

/-- `tile`: the elements of a column tile. -/
def tile : ℕ := L.M * 32

/-- `cn`: the splits of the chunk from `s0` on. -/
def cn (s0 : ℕ) : ℕ := if L.S - s0 < L.ch then L.S - s0 else L.ch

/-- `part`, below `tot`. -/
def part [Zero F] (x : ℕ) (rd : ℕ → F) (s0 i : ℕ) : F :=
  let col := x * 32 + i % 32
  if col < L.N then rd (L.addr (s0 + i / L.tile) (i % L.tile / 32) col) else 0

/-- The staging loop of a thread: four elements a round. -/
def staged (s0 : ℕ) (tid : Fin 128) : List ℕ :=
  (steps tid.val (L.cn s0 * L.tile) 512).flatMap fun i =>
    [i, i + 128, i + 256, i + 384].filter (· < L.cn s0 * L.tile)

/-- The elements of the tile that a thread sums. -/
def summed (tid : Fin 128) : List ℕ := steps tid.val L.tile 128

/-- Those that are elements of the output. -/
def inOut (x : ℕ) (tid : Fin 128) : List ℕ := (L.summed tid).filter fun o => x * 32 + o % 32 < L.N

/-- The inner loop of the sum. -/
def addUp [Add F] (smem : ℕ → F) (s0 o : ℕ) : F :=
  (List.range (L.cn s0)).foldl (fun acc s => acc + smem (s * L.tile + o)) (smem (L.ch * L.tile + o))

end Launch

/-! ## State -/

/-- The code of a block between two barriers: the `k` loop and the stores; the ticket; the check of the flag
with the zeroed sums and the first chunk; the sum of a chunk; a later chunk. -/
inductive Phase where
  | compute
  | draw
  | enter
  | sum (s0 : ℕ)
  | stage (s0 : ℕ)
  | done
  deriving DecidableEq

/-- A block: which threads have arrived at the next barrier; the places whose stores each thread knows, and
those it would release; the flag; the ticket it drew; shared memory behind the flag; how often each element
of the tile was written out. -/
structure Block (F : Type) where
  phase : Phase
  arrived : Fin 128 → Bool
  known : Fin 128 → Set ℕ
  fenced : Fin 128 → Set ℕ
  flag : Bool
  drawn : Option ℕ
  smem : ℕ → F
  count : ℕ → ℕ

/-- A launch in progress: its blocks, the counters with what the tickets have released, the partial sums
and the output. -/
structure St (F B : Type) where
  blocks : ℕ → ℕ → Block F
  counters : ℕ → ℕ
  released : ℕ → Set ℕ
  partials : ℕ → F
  out : ℕ × ℕ → B

variable {F B : Type}

/-- Before its first instruction; shared memory holds anything. -/
def Block.start (smem : ℕ → F) : Block F where
  phase := .compute
  arrived := fun _ => false
  known := fun _ => ∅
  fenced := fun _ => ∅
  flag := false
  drawn := none
  smem := smem
  count := fun _ => 0

/-- A launch begins with the counters as they are; the workspace and the output hold anything. -/
def St.start (counters : ℕ → ℕ) (smem : ℕ → ℕ → ℕ → F) (partials : ℕ → F) (out : ℕ × ℕ → B) :
    St F B where
  blocks := fun x s => .start (smem x s)
  counters := counters
  released := fun _ => ∅
  partials := partials
  out := out

/-- Set a block. -/
def St.set (st : St F B) (x s : ℕ) (b : Block F) : St F B :=
  { st with blocks := Function.update st.blocks x (Function.update (st.blocks x) s b) }

/-- A thread arrives. -/
def Block.arrive (b : Block F) (tid : Fin 128) : Block F :=
  { b with arrived := Function.update b.arrived tid true }

/-- A thread knows its own stores. -/
def Block.store (b : Block F) (tid : Fin 128) (places : Set ℕ) : Block F :=
  { b with known := Function.update b.known tid (b.known tid ∪ places) }

/-- `fence_gpu`: what the thread knows it would release, and what it was released it knows. -/
def Block.fence (b : Block F) (tid : Fin 128) : Block F :=
  { b with
    known := Function.update b.known tid (b.known tid ∪ b.fenced tid)
    fenced := Function.update b.fenced tid (b.known tid ∪ b.fenced tid) }

/-- Thread 0 has drawn a ticket, with what earlier tickets have released. -/
def Block.draw (b : Block F) (splits t : ℕ) (released : Set ℕ) : Block F :=
  { b with
    flag := decide (t = splits - 1)
    drawn := some t
    fenced := Function.update b.fenced 0 (b.fenced 0 ∪ released) }

/-- Write to shared memory. -/
def Block.write (b : Block F) (w : List (ℕ × F)) : Block F := { b with smem := storeAll b.smem w }

/-- Count the elements that a thread writes out. -/
def Block.emit (b : Block F) (os : List ℕ) : Block F :=
  { b with count := fun o => b.count o + os.count o }

/-- What follows a barrier. -/
def Launch.next (L : Launch F B) (b : Block F) : Phase → Phase
  | .compute => .draw
  | .draw => .enter
  | .enter => if b.flag then .sum 0 else .done
  | .sum s0 => if s0 + L.cn s0 = L.S then .done else .stage (s0 + L.cn s0)
  | .stage s0 => .sum s0
  | .done => .done

/-- `bar.sync`: the threads go on together, each with what any of them would release. -/
def Block.sync (L : Launch F B) (b : Block F) : Block F :=
  { b with
    phase := L.next b b.phase
    arrived := fun _ => false
    fenced := fun _ => ⋃ tid, b.fenced tid }

/-- `store_tile` and the fence of a thread. -/
def Launch.compute (L : Launch F B) (st : St F B) (x s : ℕ) (tid : Fin 128) : St F B :=
  let b := st.blocks x s
  let st := { st with partials := storeAll st.partials (L.stores x s tid) }
  st.set x s (((b.store tid (L.mine x s tid)).fence tid).arrive tid)

/-- `ticket` of thread 0: an atomic increment that acquires what earlier tickets released, and releases. -/
def Launch.ticket (L : Launch F B) (st : St F B) (x s : ℕ) : St F B :=
  let b := st.blocks x s
  let t := st.counters x
  let seen := st.released x
  let st := { st with
    counters := Function.update st.counters x (incWrap (L.S - 1) t)
    released := Function.update st.released x (seen ∪ b.fenced 0) }
  st.set x s ((b.draw L.S t seen).arrive 0)

/-- Zero the sums of a thread. -/
def Launch.zero [Zero F] (L : Launch F B) (b : Block F) (tid : Fin 128) : Block F :=
  b.write ((L.summed tid).map fun o => (L.ch * L.tile + o, 0))

/-- Stage a chunk, with what the thread reads. -/
def Launch.stage [Zero F] (L : Launch F B) (x : ℕ) (b : Block F) (rd : ℕ → F) (s0 : ℕ)
    (tid : Fin 128) : Block F :=
  b.write ((L.staged s0 tid).map fun i => (i, L.part x rd s0 i))

/-- Sum a chunk: the running sums, or with the last chunk the output. -/
def Launch.sum [Add F] (L : Launch F B) (st : St F B) (x s s0 : ℕ) (tid : Fin 128) : St F B :=
  let b := st.blocks x s
  let os := L.inOut x tid
  if s0 + L.cn s0 = L.S then
    let w := os.map fun o => ((o / 32, x * 32 + o % 32), L.toBf16 (L.addUp b.smem s0 o))
    let st := { st with out := storeAll st.out w }
    st.set x s ((b.emit os).arrive tid)
  else
    let w := os.map fun o => (L.ch * L.tile + o, L.addUp b.smem s0 o)
    st.set x s ((b.write w).arrive tid)

/-- What a thread reads: what is there, at the places whose stores it knows. -/
def Sees (known : Set ℕ) (partials rd : ℕ → F) : Prop := ∀ a ∈ known, rd a = partials a

/-- A step of a launch: a thread runs to the next barrier, or the threads of a block pass one. -/
inductive Step [Zero F] [Add F] (L : Launch F B) (st : St F B) : St F B → Prop
  | compute {x s : ℕ} {tid : Fin 128} :
    x < L.gridX → s < L.S →
    (st.blocks x s).phase = .compute →
    (st.blocks x s).arrived tid = false →
    Step L st (L.compute st x s tid)
  | ticket {x s : ℕ} :
    x < L.gridX → s < L.S →
    (st.blocks x s).phase = .draw →
    (st.blocks x s).arrived 0 = false →
    Step L st (L.ticket st x s)
  | wait {x s : ℕ} {tid : Fin 128} :
    x < L.gridX → s < L.S →
    (st.blocks x s).phase = .draw →
    tid ≠ 0 →
    (st.blocks x s).arrived tid = false →
    Step L st (st.set x s ((st.blocks x s).arrive tid))
  | leave {x s : ℕ} {tid : Fin 128} :
    x < L.gridX → s < L.S →
    (st.blocks x s).phase = .enter →
    (st.blocks x s).flag = false →
    (st.blocks x s).arrived tid = false →
    Step L st (st.set x s ((st.blocks x s).arrive tid))
  | enter {x s : ℕ} {tid : Fin 128} {rd : ℕ → F} :
    x < L.gridX → s < L.S →
    (st.blocks x s).phase = .enter →
    (st.blocks x s).flag = true →
    (st.blocks x s).arrived tid = false →
    Sees (((st.blocks x s).fence tid).known tid) st.partials rd →
    Step L st (st.set x s
      ((L.stage x (L.zero ((st.blocks x s).fence tid) tid) rd 0 tid).arrive tid))
  | sum {x s s0 : ℕ} {tid : Fin 128} :
    x < L.gridX → s < L.S →
    (st.blocks x s).phase = .sum s0 →
    (st.blocks x s).arrived tid = false →
    Step L st (L.sum st x s s0 tid)
  | stage {x s s0 : ℕ} {tid : Fin 128} {rd : ℕ → F} :
    x < L.gridX → s < L.S →
    (st.blocks x s).phase = .stage s0 →
    (st.blocks x s).arrived tid = false →
    Sees ((st.blocks x s).known tid) st.partials rd →
    Step L st (st.set x s ((L.stage x (st.blocks x s) rd s0 tid).arrive tid))
  | sync {x s : ℕ} :
    x < L.gridX → s < L.S →
    (st.blocks x s).phase ≠ .done →
    (∀ tid, (st.blocks x s).arrived tid = true) →
    Step L st (st.set x s ((st.blocks x s).sync L))

/-- All blocks have ended. -/
def Ended (L : Launch F B) (st : St F B) : Prop :=
  ∀ x < L.gridX, ∀ s < L.S, (st.blocks x s).phase = .done

/-- A state of a launch in a sequence of launches from zeroed counters, each with the counters that the one
before has left. -/
inductive Reach [Zero F] [Add F] : Launch F B → St F B → Prop
  | first {L : Launch F B} {smem : ℕ → ℕ → ℕ → F} {partials : ℕ → F} {out : ℕ × ℕ → B} :
    Reach L (.start (fun _ => 0) smem partials out)
  | step {L : Launch F B} {st st' : St F B} :
    Reach L st →
    Step L st st' →
    Reach L st'
  | next {L L' : Launch F B} {st : St F B} {smem : ℕ → ℕ → ℕ → F} {partials : ℕ → F}
      {out : ℕ × ℕ → B} :
    Reach L st →
    Ended L st →
    Reach L' (.start st.counters smem partials out)

/-- `nvfp4_splitk_reduce`: an element of the output. -/
def Launch.reduce [Zero F] [Add F] (L : Launch F B) (partials : ℕ → F) (row col : ℕ) : B :=
  L.toBf16 ((List.range L.S).foldl (fun acc s => acc + partials (L.addr s row col)) 0)

end SuffixHybrid.NvGemm
