import SuffixHybrid.Lib.Grid

/-!
# The host-memory collectives

The kernels `_har_kernel` (one-shot and two-shot), `_har_q8_kernel` and `_hag_kernel` of `host_ar.py`. A
launch works in rounds. Every block of a rank writes its part of the rank's partial to the rank's slot, waits
at the barrier, reads the slots of the other ranks, and in the two-shot kernels writes to the reduced slot,
waits again and reads the reduced slots. `Part` is what a block does between two barriers: its loads and
stores in the slots, and its stores to the output. Slots are in bytes and are read through a `View`, which
says what a load finds.

The numbers are abstract (`Arith`): `tl.float32` and the casts to and from it, the accumulation, and
`_quant8` and `_dequant8` on one group. Lanes that a mask switches off take the value `other` of the source;
indices are natural numbers.
-/

namespace SuffixHybrid.HostAr
open Lib

/-- `BLOCK`. -/
def block : ℕ := 1024

/-- `FLAG_BYTES`. -/
def flagBytes : ℕ := 64 * 1024

/-- The numbers: 16-bit words `B`, fp32 `F`, int8 codes `Q` and fp32 scales `S`, in groups of `G`. -/
structure Arith (B F Q S : Type) (G : ℕ) where
  toF : B → F
  zero : F
  add : F → F → F
  round : F → B
  quant : (Fin G → F) → (Fin G → Q) × S
  dequant : Q → S → F
  otherB : B
  otherQ : Q
  otherS : S

/-- A launch of a collective on `world` ranks: `round` elements a round, `n` elements, the epoch counter
before it, and the inputs. -/
structure Launch (B : Type) where
  world : ℕ
  round : ℕ
  grid : ℕ
  n : ℕ
  ctr : ℕ
  x : ℕ → ℕ → B

/-- What `HostAllReduce.__init__` accepts. -/
def accepted (world round : ℕ) : Prop :=
  (world = 2 ∨ world = 4 ∨ world = 8) ∧ round % (world * block) = 0

/-! ## Slots -/

/-- A slot of a rank: in the data or in the reduced buffers, of the even or the odd epochs. -/
structure Slot where
  reduced : Bool
  par : ℕ
  rank : ℕ

/-- An access of a slot. -/
structure Access where
  slot : Slot
  addr : ℕ
  size : ℕ

/-- What is stored at an address. -/
inductive Word (B Q S : Type) where
  | b16 (b : B)
  | i8 (q : Q)
  | f32 (s : S)

/-- What loads find at the addresses. -/
structure View (B Q S : Type) where
  b16 : ℕ → B
  i8 : ℕ → Q
  f32 : ℕ → S

/-- A store is visible to loads of its type. -/
def View.Shows {B Q S : Type} (v : View B Q S) (a : Access) : Word B Q S → Prop
  | .b16 b => v.b16 a.addr = b
  | .i8 q => v.i8 a.addr = q
  | .f32 s => v.f32 a.addr = s

namespace Launch
variable {B F Q S : Type} {G : ℕ} (L : Launch B)

/-- `RCH`. -/
def rch : ℕ := L.round / L.world

/-- The data buffers, in bytes. -/
def dataBytes : ℕ := 2 * L.world * L.round * 2

/-- The slots as the constructor touches them: the first byte. -/
def slotStart (s : Slot) : ℕ :=
  if s.reduced then flagBytes + L.dataBytes + (s.par * L.world + s.rank) * L.rch * 2
  else flagBytes + (s.par * L.world + s.rank) * L.round * 2

/-- The number of bytes of a slot. -/
def slotSize (s : Slot) : ℕ := if s.reduced then L.rch * 2 else L.round * 2

/-- An access stays inside its slot. -/
def Inside (a : Access) : Prop :=
  L.slotStart a.slot ≤ a.addr ∧ a.addr + a.size ≤ L.slotStart a.slot + L.slotSize a.slot

/-- `dat + j * ROUND + o`. -/
def dataAt (par j o : ℕ) : Access :=
  ⟨⟨false, par, j⟩, flagBytes + 2 * (par * (L.world * L.round) + j * L.round + o), 2⟩

/-- `red + j * RCH + o`. -/
def redAt (par j o : ℕ) : Access :=
  ⟨⟨true, par, j⟩, flagBytes + L.dataBytes + 2 * (par * (L.world * L.rch) + j * L.rch + o), 2⟩

/-- `qd + (par * WORLD + j) * (2 * ROUND) + o`. -/
def codeAt (par j o : ℕ) : Access :=
  ⟨⟨false, par, j⟩, flagBytes + ((par * L.world + j) * (2 * L.round) + o), 1⟩

/-- `sd + (par * WORLD + j) * (ROUND // 2) + ROUND // 4 + og`. -/
def scaleAt (par j og : ℕ) : Access :=
  ⟨⟨false, par, j⟩, flagBytes + 4 * ((par * L.world + j) * (L.round / 2) + L.round / 4 + og), 4⟩

/-- `qr + (par * WORLD + j) * (2 * RCH) + o`. -/
def redCodeAt (par j o : ℕ) : Access :=
  ⟨⟨true, par, j⟩, flagBytes + L.dataBytes + ((par * L.world + j) * (2 * L.rch) + o), 1⟩

/-- `sr + (par * WORLD + j) * (RCH // 2) + RCH // 4 + og`. -/
def redScaleAt (par j og : ℕ) : Access :=
  ⟨⟨true, par, j⟩, flagBytes + L.dataBytes + 4 * ((par * L.world + j) * (L.rch / 2) + L.rch / 4 + og), 4⟩

/-! ## Rounds -/

/-- The number of rounds. It is a division by the round size, which the constructor lets be 0. -/
def nrounds : Option ℕ := if L.round = 0 then none else some (cdiv L.n L.round)

/-- The epoch of a round, 32 bits wide. -/
def epoch (rnd : ℕ) : ℕ := (L.ctr + (rnd + 1)) % 2 ^ 32

def par (rnd : ℕ) : ℕ := L.epoch rnd % 2

def base (rnd : ℕ) : ℕ := rnd * L.round

/-- The elements of a round. -/
def rn (rnd : ℕ) : ℕ := min (L.n - L.base rnd) L.round

/-- The size of the chunks of a round, rounded up to a multiple of `unit`. -/
def ch (unit rnd : ℕ) : ℕ := cdiv (cdiv (L.rn rnd) L.world) unit * unit

def lo (unit rnd r : ℕ) : ℕ := r * L.ch unit rnd

def hi (unit rnd r : ℕ) : ℕ := min (L.lo unit rnd r + L.ch unit rnd) (L.rn rnd)

/-- Phase 1 writes what some other rank reads. -/
def Others (unit rnd r o : ℕ) : Prop := o < L.rn rnd ∧ (o < L.lo unit rnd r ∨ o ≥ L.hi unit rnd r)

instance (unit rnd r o : ℕ) : Decidable (L.Others unit rnd r o) := inferInstanceAs (Decidable (_ ∧ _))

/-- The tiles of a block over a range, with their lanes. -/
def tiles (pid start stop : ℕ) : List ℕ := steps (start + pid * block) stop (L.grid * block)

/-- The lanes of a tile. -/
def lanes (s : ℕ) : List ℕ := (List.range block).map fun lane => s + lane

end Launch

/-! ## The kernels -/

/-- What a block does between two barriers. -/
structure Part (B Q S : Type) where
  loads : List Access
  stores : List (Access × Word B Q S)
  out : List (ℕ × B)

namespace Launch
variable {B F Q S : Type} {G : ℕ} (L : Launch B) (A : Arith B F Q S G)

/-- Phase 1 of `_har_kernel`. -/
def harPartial (oneShot : Bool) (r rnd pid : ℕ) : Part B Q S where
  loads := []
  stores := (L.tiles pid 0 (L.rn rnd)).flatMap fun s =>
    ((lanes s).filter fun o => o < L.rn rnd ∧ (oneShot ∨ L.Others 8 rnd r o)).map fun o =>
      (L.dataAt (L.par rnd) r o, .b16 (L.x r (L.base rnd + o)))
  out := []

/-- The sum over the ranks at an index of a round, in rank order. -/
def harSum (v : View B Q S) (r rnd o : ℕ) : F :=
  (List.range L.world).foldl (fun acc j => A.add acc (A.toF
    (if j = r then L.x r (L.base rnd + o) else v.b16 (L.dataAt (L.par rnd) j o).addr))) A.zero

/-- The partials of the others, at an index of a round. -/
def harLoads (r rnd o : ℕ) : List Access :=
  ((List.range L.world).filter (· ≠ r)).map fun j => L.dataAt (L.par rnd) j o

/-- `_har_kernel` after the barrier, one-shot. -/
def harOneShot (v : View B Q S) (r rnd pid : ℕ) : Part B Q S :=
  let os := (L.tiles pid 0 (L.rn rnd)).flatMap fun s => (lanes s).filter fun o => o < L.rn rnd
  { loads := os.flatMap (L.harLoads r rnd)
    stores := []
    out := os.map fun o => (L.base rnd + o, A.round (L.harSum A v r rnd o)) }

/-- Phase 2 of `_har_kernel`: reduce the own chunk. -/
def harReduce (v : View B Q S) (r rnd pid : ℕ) : Part B Q S :=
  let os := (L.tiles pid (L.lo 8 rnd r) (L.hi 8 rnd r)).flatMap fun s =>
    (lanes s).filter fun o => o < L.hi 8 rnd r
  { loads := os.flatMap (L.harLoads r rnd)
    stores := os.map fun o =>
      (L.redAt (L.par rnd) r (o - L.lo 8 rnd r), .b16 (A.round (L.harSum A v r rnd o)))
    out := os.map fun o => (L.base rnd + o, A.round (L.harSum A v r rnd o)) }

/-- Phase 3 of `_har_kernel`: the reduced chunks of the others. -/
def harGather (v : View B Q S) (r rnd pid : ℕ) : Part B Q S :=
  let jos := ((List.range L.world).filter (· ≠ r)).flatMap fun j =>
    (L.tiles pid (L.lo 8 rnd j) (L.hi 8 rnd j)).flatMap fun s =>
      ((lanes s).filter fun o => o < L.hi 8 rnd j).map fun o => (j, o)
  { loads := jos.map fun e => L.redAt (L.par rnd) e.1 (e.2 - L.lo 8 rnd e.1)
    stores := []
    out := jos.map fun e =>
      (L.base rnd + e.2, v.b16 (L.redAt (L.par rnd) e.1 (e.2 - L.lo 8 rnd e.1)).addr) }

/-- `_hag_kernel` before the barrier. -/
def hagOwn (r rnd pid : ℕ) : Part B Q S :=
  let os := (L.tiles pid 0 (L.rn rnd)).flatMap fun s => (lanes s).filter fun o => o < L.rn rnd
  { loads := []
    stores := os.map fun o => (L.dataAt (L.par rnd) r o, .b16 (L.x r (L.base rnd + o)))
    out := os.map fun o => (r * L.n + L.base rnd + o, L.x r (L.base rnd + o)) }

/-- `_hag_kernel` after the barrier. -/
def hagOthers (v : View B Q S) (r rnd pid : ℕ) : Part B Q S :=
  let jos := ((List.range L.world).filter (· ≠ r)).flatMap fun j =>
    (L.tiles pid 0 (L.rn rnd)).flatMap fun s =>
      ((lanes s).filter fun o => o < L.rn rnd).map fun o => (j, o)
  { loads := jos.map fun e => L.dataAt (L.par rnd) e.1 e.2
    stores := []
    out := jos.map fun e => (e.1 * L.n + L.base rnd + e.2, v.b16 (L.dataAt (L.par rnd) e.1 e.2).addr) }

end Launch

/-! ## The int8 kernel -/

section
variable {B F Q S : Type} {G : ℕ} [NeZero G] (A : Arith B F Q S G)

/-- `_quant8` on the lanes of a tile: codes by lane, scales by group. -/
def quant8 (v : ℕ → F) : (ℕ → Q) × (ℕ → S) :=
  (fun lane => (A.quant fun k => v (lane / G * G + k)).1 (Fin.ofNat G lane),
    fun ag => (A.quant fun k => v (ag * G + k)).2)

/-- `_dequant8` on the lanes of a tile. -/
def dequant8 (q : ℕ → Q) (scale : ℕ → S) (lane : ℕ) : F := A.dequant (q lane) (scale (lane / G))

namespace Launch
variable (L : Launch B)

/-- The groups of a tile that starts at `s`. -/
def groups (G s : ℕ) : List ℕ := (List.range (block / G)).map fun ag => s / G + ag

/-- The values of a tile in phase 1. -/
def q8Partial (r rnd s lane : ℕ) : F :=
  A.toF (if L.Others G rnd r (s + lane) then L.x r (L.base rnd + (s + lane)) else A.otherB)

/-- Phase 1 of `_har_q8_kernel`. -/
def q8Quant (r rnd pid : ℕ) : Part B Q S where
  loads := []
  stores := (L.tiles pid 0 (L.rn rnd)).flatMap fun s =>
    (((lanes s).filter fun o => L.Others G rnd r o).map fun o =>
      (L.codeAt (L.par rnd) r o, .i8 ((quant8 A (L.q8Partial A r rnd s)).1 (o - s)))) ++
    (((groups G s).filter fun og => L.Others G rnd r (og * G)).map fun og =>
      (L.scaleAt (L.par rnd) r og, .f32 ((quant8 A (L.q8Partial A r rnd s)).2 (og - s / G))))
  out := []

/-- The dequantized partial of another rank, on the lanes of a tile. -/
def q8Other (v : View B Q S) (r rnd j s : ℕ) : ℕ → F :=
  dequant8 A
    (fun lane => if s + lane < L.hi G rnd r then v.i8 (L.codeAt (L.par rnd) j (s + lane)).addr else A.otherQ)
    fun ag => if (s / G + ag) * G < L.hi G rnd r then v.f32 (L.scaleAt (L.par rnd) j (s / G + ag)).addr
      else A.otherS

/-- The sum over the ranks on the lanes of a tile, in rank order. -/
def q8Sum (v : View B Q S) (r rnd s lane : ℕ) : F :=
  (List.range L.world).foldl (fun acc j => A.add acc
    (if j = r then
      A.toF (if s + lane < L.hi G rnd r then L.x r (L.base rnd + (s + lane)) else A.otherB)
    else L.q8Other A v r rnd j s lane)) A.zero

/-- Phase 2 of `_har_q8_kernel`. -/
def q8Reduce (v : View B Q S) (r rnd pid : ℕ) : Part B Q S :=
  let ss := L.tiles pid (L.lo G rnd r) (L.hi G rnd r)
  { loads := ss.flatMap fun s => ((List.range L.world).filter (· ≠ r)).flatMap fun j =>
      (((lanes s).filter fun o => o < L.hi G rnd r).map fun o => L.codeAt (L.par rnd) j o) ++
      (((groups G s).filter fun og => og * G < L.hi G rnd r).map fun og => L.scaleAt (L.par rnd) j og)
    stores := ss.flatMap fun s =>
      (((lanes s).filter fun o => o < L.hi G rnd r).map fun o =>
        (L.redCodeAt (L.par rnd) r (o - L.lo G rnd r), .i8 ((quant8 A (L.q8Sum A v r rnd s)).1 (o - s)))) ++
      (((groups G s).filter fun og => og * G < L.hi G rnd r).map fun og =>
        (L.redScaleAt (L.par rnd) r (og - L.lo G rnd r / G),
          .f32 ((quant8 A (L.q8Sum A v r rnd s)).2 (og - s / G))))
    out := ss.flatMap fun s => ((lanes s).filter fun o => o < L.hi G rnd r).map fun o =>
      (L.base rnd + o, A.round (dequant8 A (quant8 A (L.q8Sum A v r rnd s)).1
        (quant8 A (L.q8Sum A v r rnd s)).2 (o - s))) }

/-- The reduced chunk of another rank, on the lanes of a tile. -/
def q8Reduced (v : View B Q S) (rnd j s : ℕ) : ℕ → F :=
  dequant8 A
    (fun lane => if s + lane < L.hi G rnd j then
      v.i8 (L.redCodeAt (L.par rnd) j (s + lane - L.lo G rnd j)).addr else A.otherQ)
    fun ag => if ((s - L.lo G rnd j) / G + ag) * G < L.hi G rnd j - L.lo G rnd j then
      v.f32 (L.redScaleAt (L.par rnd) j ((s - L.lo G rnd j) / G + ag)).addr else A.otherS

/-- Phase 3 of `_har_q8_kernel`. -/
def q8Gather (v : View B Q S) (r rnd pid : ℕ) : Part B Q S :=
  let jss := ((List.range L.world).filter (· ≠ r)).flatMap fun j =>
    (L.tiles pid (L.lo G rnd j) (L.hi G rnd j)).map fun s => (j, s)
  { loads := jss.flatMap fun e =>
      (((lanes e.2).filter fun o => o < L.hi G rnd e.1).map fun o =>
        L.redCodeAt (L.par rnd) e.1 (o - L.lo G rnd e.1)) ++
      (((List.range (block / G)).map fun ag => (e.2 - L.lo G rnd e.1) / G + ag).filter fun og =>
        og * G < L.hi G rnd e.1 - L.lo G rnd e.1).map fun og => L.redScaleAt (L.par rnd) e.1 og
    stores := []
    out := jss.flatMap fun e => ((lanes e.2).filter fun o => o < L.hi G rnd e.1).map fun o =>
      (L.base rnd + o, A.round (L.q8Reduced A v rnd e.1 e.2 (o - e.2))) }

end Launch
end
end SuffixHybrid.HostAr
