import SuffixHybrid.Lib.Grid
import SuffixHybrid.Lib.Scan
import SuffixHybrid.Lib.Ticket

/-!
# The MoE routers

`route_cta` and `route_par`: the pairs of tokens and experts are listed by expert, for the experts of this rank
that have any. The threads of the block run in phases between barriers. A thread reads only what was there before
the phase, and the writes of a phase may land in any order. Counts and offsets are natural numbers.
-/

namespace SuffixHybrid.Nvfp4Moe
open Lib

/-! ## Memory -/

/-- The 32-bit words of shared memory, the 16-bit identifiers behind its first 16 words, and the workspace. -/
inductive Buf where
  | sh
  | ids
  | slotExpert
  | slotOff
  | slotCnt
  | pairList
deriving DecidableEq

/-- A place in a buffer. -/
abbrev Addr := Buf × ℕ

/-- The buffers. -/
abbrev Mem := Addr → ℤ

/-- A store. -/
abbrev Write := Addr × ℤ

/-- `RT`. -/
def RT : ℕ := 256

/-- A phase: the stores of all threads, in any order. -/
def Phase (writes : ℕ → List Write) (l : List Write) : Prop := l.Perm ((List.range RT).flatMap writes)

/-! ## Arguments -/

/-- The arguments of a router. -/
structure Args where
  topkIds : ℕ → ℤ
  idsI64 : Bool
  idBase : ℕ
  pairs : ℕ
  numExperts : ℕ
  maxSlots : ℕ

/-- `as i32`, and wrapping arithmetic. -/
def toI32 (x : ℤ) : ℤ := x.bmod (2 ^ 32)

namespace Args
variable (A : Args)

/-- `local_id`. -/
def localId (p : ℕ) : ℤ :=
  let raw := if A.idsI64 then toI32 (A.topkIds p) else A.topkIds p
  toI32 (raw - toI32 A.idBase)

/-- The pair has the expert. -/
def has (e p : ℕ) : Bool := A.localId p = e

/-- List pairs from a place on. -/
def walk : List (ℕ × Bool) → ℕ → List Write
  | [], _ => []
  | (p, true) :: ps, o => ((.pairList, o), (p : ℤ)) :: walk ps (o + 1)
  | (_, false) :: ps, o => walk ps o

/-- The pairs of an expert. -/
def count (e : ℕ) : ℕ := (List.range A.pairs).countP (A.has e)

/-! ## `route_cta` -/

/-- The counts. -/
def ctaCount (tid : ℕ) : List Write := if tid < A.numExperts then [((.sh, tid), (A.count tid : ℤ))] else []

/-- The loop of thread 0 over the experts, and the slots that are left. -/
def ctaExperts (m : Mem) : List ℕ → ℤ → ℕ → List Write
  | [], _, s => (List.range (A.maxSlots - s)).flatMap fun i => [((.slotExpert, s + i), -1), ((.slotCnt, s + i), 0)]
  | e :: es, off, s =>
    let c := m (.sh, e)
    ((.sh, A.numExperts + e), off) ::
      if 0 < c ∧ s < A.maxSlots then
        ((.slotExpert, s), (e : ℤ)) :: ((.slotOff, s), off) :: ((.slotCnt, s), c) :: ctaExperts m es (off + c) (s + 1)
      else ctaExperts m es (off + c) s

/-- The slots. -/
def ctaSlots (m : Mem) (tid : ℕ) : List Write :=
  if tid = 0 then A.ctaExperts m (List.range A.numExperts) 0 0 else []

/-- The lists of pairs. -/
def ctaPairs (m : Mem) (tid : ℕ) : List Write :=
  if tid < A.numExperts ∧ 0 < A.count tid then
    walk ((List.range A.pairs).map fun p => (p, A.has tid p)) (m (.sh, A.numExperts + tid)).toNat
  else []

/-- `route_cta`: its stores, from a memory. -/
def RouteCta (m : Mem) (l : List Write) : Prop :=
  ∃ l₁ l₂ l₃, Phase A.ctaCount l₁ ∧ Phase (A.ctaSlots (storeAll m l₁)) l₂ ∧
    Phase (A.ctaPairs (storeAll m (l₁ ++ l₂))) l₃ ∧ l = l₁ ++ l₂ ++ l₃

/-! ## `route_par` -/

/-- `np8`. -/
def np8 : ℕ := (A.pairs + 7) / 8 * 8

/-- `nw`. -/
def nw : ℕ := A.np8 / 2

/-- The 16-bit identifier of a pair. -/
def code (p : ℕ) : ℤ :=
  let v := if p < A.pairs then A.localId p else -1
  (if 0 ≤ v ∧ v < A.numExperts then v else 0xFFFF) % 2 ^ 16

/-- The identifiers. -/
def parIds (tid : ℕ) : List Write := (steps tid A.np8 RT).map fun p => ((.ids, p), A.code p)

/-- A word of two identifiers, the lower half first. -/
def word (m : Mem) (w : ℕ) : ℕ := (m (.ids, 2 * w)).toNat + 2 ^ 16 * (m (.ids, 2 * w + 1)).toNat

/-- `cnt`: four words at a time. -/
def parCnt (m : Mem) (tid : ℕ) : ℕ :=
  if tid < A.numExperts then
    ((steps 0 A.nw 4).map fun w => ((List.range 4).map fun j =>
      (word m (w + j) &&& 0xFFFF == tid).toNat + (word m (w + j) >>> 16 == tid).toNat).sum).sum
  else 0

/-- `act`. -/
def parAct (m : Mem) (tid : ℕ) : ℕ := if 0 < A.parCnt m tid then 1 else 0

/-- A scan over the lanes of the thread's warp, with shuffles. -/
def warpScan (v : ℕ → ℕ) (tid : ℕ) : ℕ := scan (fun lane => v (32 * (tid / 32) + lane)) 5 (tid % 32)

/-- The totals of the warps. -/
def parTotals (m : Mem) (tid : ℕ) : List Write :=
  if tid % 32 = 31 then
    [((.sh, tid / 32), (warpScan (A.parCnt m) tid : ℤ)), ((.sh, 8 + tid / 32), (warpScan (A.parAct m) tid : ℤ))]
  else []

/-- The totals of the warps before the thread's, from a word on. -/
def before (m : Mem) (base tid : ℕ) : ℕ :=
  ((List.range (RT / 32)).map fun w => if w < tid / 32 then (m (.sh, base + w)).toNat else 0).sum

/-- The pairs in the order of the walk, and whether they have the expert. -/
def parPairs (m : Mem) (tid : ℕ) : List (ℕ × Bool) :=
  (steps 0 A.nw 4).flatMap fun w => (List.range 8).map fun j =>
    (2 * w + j, (word m (w + j / 2) >>> (16 * (j % 2))) &&& 0xFFFF == tid)

/-- The slots and the lists of pairs. The registers are from the memory `m₁` of the phase before. -/
def parOut (m₁ m : Mem) (tid : ℕ) : List Write :=
  let cnt := A.parCnt m₁ tid
  let na := ((List.range (RT / 32)).map fun w => (m (.sh, 8 + w)).toNat).sum
  let off := before m 0 tid + warpScan (A.parCnt m₁) tid - cnt
  let slot := before m 8 tid + warpScan (A.parAct m₁) tid - A.parAct m₁ tid
  (if tid < A.numExperts ∧ 0 < cnt ∧ slot < A.maxSlots then
    [((.slotExpert, slot), (tid : ℤ)), ((.slotOff, slot), (off : ℤ)), ((.slotCnt, slot), (cnt : ℤ))] else []) ++
  (if tid < A.maxSlots ∧ na ≤ tid then [((.slotExpert, tid), -1), ((.slotCnt, tid), 0)] else []) ++
  if tid < A.numExperts ∧ 0 < cnt then walk (A.parPairs m tid) off else []

/-- `route_par`: its stores, from a memory. -/
def RoutePar (m : Mem) (l : List Write) : Prop :=
  ∃ l₁ l₂ l₃, Phase A.parIds l₁ ∧ Phase (A.parTotals (storeAll m l₁)) l₂ ∧
    Phase (A.parOut (storeAll m l₁) (storeAll m (l₁ ++ l₂))) l₃ ∧ l = l₁ ++ l₂ ++ l₃

end Args

end SuffixHybrid.Nvfp4Moe
