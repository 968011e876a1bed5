import Mathlib.Data.Fin.VecNotation
import Mathlib.Tactic.Linarith
import SuffixHybrid.Lib.Run

/-!
# Deferred state commit of the GDN verify

Under vLLM's contract a verify step reads the state of a request from slot `num_accepted - 1` of its window
and writes the state after every token `t` to slot `t`. `_gdn_defer_kernel` writes the state after token 0
and keeps the inputs of the other tokens as records in slot 1, which the next step replays; around a block
boundary it follows vLLM's contract. One program of the grid is modelled: a tile of the state of one request,
with the update and the output of a token as parameters.
-/

namespace SuffixHybrid.Gdn
open Lib

/-! ## Memory -/

/-- The state tensor: blocks, and the words of a block. -/
abbrev Mem (W : Type) := ℤ → ℕ → W

namespace Mem
variable {W : Type}

/-- `tl.load` of the `n` words of a block from an offset on. -/
def load (m : Mem W) (slot : ℤ) (off n : ℕ) : Fin n → W := fun i => m slot (off + i)

/-- `tl.store` of `n` words into a block from an offset on. -/
def store (m : Mem W) (slot : ℤ) (off : ℕ) {n : ℕ} (f : Fin n → W) : Mem W := fun s o =>
  if h : s = slot ∧ off ≤ o ∧ o - off < n then f ⟨o - off, h.2.2⟩ else m s o

lemma load_store (m : Mem W) (slot : ℤ) (off : ℕ) {n : ℕ} (f : Fin n → W) :
    (m.store slot off f).load slot off n = f := by
  funext i
  have h : slot = slot ∧ off ≤ off + i ∧ off + i - off < n := ⟨rfl, by omega, by omega⟩
  rw [load, store, dif_pos h]
  exact congrArg f (Fin.ext (Nat.add_sub_cancel_left off i))

lemma load_store_ne (m : Mem W) {slot slot' : ℤ} (h : slot' ≠ slot) (off off' n' : ℕ) {n : ℕ}
    (f : Fin n → W) : (m.store slot off f).load slot' off' n' = m.load slot' off' n' :=
  funext fun _ => dif_neg fun e => h e.1

lemma load_store_apart (m : Mem W) (slot : ℤ) {off off' n' n : ℕ} (f : Fin n → W)
    (h : off' + n' ≤ off ∨ off + n ≤ off') :
    (m.store slot off f).load slot off' n' = m.load slot off' n' :=
  funext fun i => dif_neg fun e => by omega

/-- Outside of its words a store changes nothing. -/
lemma store_outside (m : Mem W) (slot : ℤ) {off n lo hi : ℕ} (f : Fin n → W) (hlo : lo ≤ off)
    (hhi : off + n ≤ hi) {s : ℤ} {o : ℕ} (h : o < lo ∨ hi ≤ o) : m.store slot off f s o = m s o :=
  dif_neg fun e => by omega

end Mem

/-! ## Kernel -/

/-- The sizes of a launch, with the room that `gdn_defer` asserts. -/
structure Shape where
  K : ℕ
  BV : ℕ
  WIN : ℕ
  room : (WIN - 1) * ((K + BV + 2 + 63) / 64 * 64) ≤ BV * K

/-- `REC`: the words of a record. -/
def Shape.REC (S : Shape) : ℕ := (S.K + S.BV + 2 + 63) / 64 * 64

/-- The `[BV, K]` tile of a state, row by row. -/
abbrev State (S : Shape) (W : Type) := Fin (S.BV * S.K) → W

/-- The inputs of a token that its update reads. -/
structure Inputs (S : Shape) (W : Type) where
  k : Fin S.K → W
  v : Fin S.BV → W
  a : W
  b : W

/-- A token: its query and its inputs. -/
structure Token (S : Shape) (W : Type) where
  q : Fin S.K → W
  raw : Inputs S W

/-- What a step is launched with: `seq_lens`, the query length, `num_accepted` and the tokens. -/
structure Step (S : Shape) (W : Type) where
  seqLen : ℕ
  n : ℕ
  acc : ℕ
  x : ℕ → Token S W

/-- `c_now`: the tokens computed before the step. -/
def Step.c {S : Shape} {W : Type} (p : Step S W) : ℤ := p.seqLen - p.n

/-- A program: the row of `state_indices`, `tile_base`, `ZONE`, `_gdn_token`, and the output of a token. -/
structure Program (S : Shape) (W O : Type) where
  slot : ℕ → ℤ
  base : ℕ
  zone : ℕ
  update : State S W → Inputs S W → State S W
  output : State S W → Token S W → O

/-- The registers and memory inside the loop over the tokens: the state, the outputs so far, and the tokens
recorded so far. -/
structure Regs (S : Shape) (W O : Type) where
  h : State S W
  mem : Mem W
  outs : List O
  kept : List ℕ

/-- A step: the memory it leaves, its outputs, the records it replayed and the ones it wrote. -/
structure Result (W O : Type) where
  mem : Mem W
  outs : List O
  replayed : List ℕ
  recorded : List ℕ

namespace Program
variable {S : Shape} {W O : Type} (D : Program S W O)

/-- The state tile of a slot. -/
def tile (m : Mem W) (s : ℤ) : State S W := m.load s D.base (S.BV * S.K)

/-- `r`: where the record of token `t` starts. -/
def recAt (t : ℕ) : ℕ := D.base + (t - 1) * S.REC

/-- The record of token `t`. -/
def inputs (m : Mem W) (t : ℕ) : Inputs S W where
  k := m.load (D.slot 1) (D.recAt t) S.K
  v := m.load (D.slot 1) (D.recAt t + S.K) S.BV
  a := m.load (D.slot 1) (D.recAt t + S.K + S.BV) 2 0
  b := m.load (D.slot 1) (D.recAt t + S.K + S.BV) 2 1

/-- Write the record of token `t`. -/
def record (m : Mem W) (t : ℕ) (r : Inputs S W) : Mem W :=
  let m := m.store (D.slot 1) (D.recAt t) r.k
  let m := m.store (D.slot 1) (D.recAt t + S.K) r.v
  m.store (D.slot 1) (D.recAt t + S.K + S.BV) ![r.a, r.b]

/-- `cur_zone` and `prev_zone`: whether the positions behind `c` reach a boundary. `//` truncates. -/
def inZone (c : ℤ) : Bool :=
  if 0 < D.zone then c.tdiv D.zone < (c + 2 * S.WIN).tdiv D.zone else c < 0

/-- `deferred`. -/
def deferred (p : Step S W) : Bool := 2 ≤ p.acc && !D.inZone (p.c - p.acc)

/-- A token of the second loop. -/
def token (p : Step S W) (r : Regs S W O) (t : ℕ) : Regs S W O :=
  let h := D.update r.h (p.x t).raw
  let outs := r.outs ++ [D.output h (p.x t)]
  if t = 0 then
    ⟨h, if 0 < D.slot 0 then r.mem.store (D.slot 0) D.base h else r.mem, outs, r.kept⟩
  else
    let mem := if D.inZone p.c && 0 < D.slot t then r.mem.store (D.slot t) D.base h else r.mem
    if !D.inZone p.c && 0 < D.slot 1 then
      ⟨h, D.record mem t (p.x t).raw, outs, r.kept ++ [t]⟩
    else ⟨h, mem, outs, r.kept⟩

/-- The tokens of the first loop that pass its mask. -/
def replays (p : Step S W) : List ℕ :=
  (List.range' 1 (S.WIN - 1)).filter fun t => D.deferred p && t < p.acc

/-- `_gdn_defer_kernel`. -/
def step (m : Mem W) (p : Step S W) : Result W O :=
  if p.n = 0 then ⟨m, [], [], []⟩
  else
    let read := if D.deferred p then D.slot 0 else D.slot (p.acc - 1)
    if read ≤ 0 then ⟨m, [], [], []⟩
    else if D.deferred p && D.slot 1 ≤ 0 then ⟨m, [], [], []⟩
    else
      let h := (D.replays p).foldl (fun h t => D.update h (D.inputs m t)) (D.tile m read)
      let r := (List.range S.WIN).foldl (fun r t => if t < p.n then D.token p r t else r)
        ⟨h, m, [], []⟩
      ⟨r.mem, r.outs, D.replays p, r.kept⟩

/-- The memory after the steps of a run. -/
def run (m : Mem W) (ps : List (Step S W)) : Mem W := ps.foldl (fun m p => (D.step m p).mem) m

/-! ## vLLM's contract -/

/-- A token of the stock kernel: the state after it goes to its slot. -/
def stockToken (p : Step S W) (r : State S W × Mem W × List O) (t : ℕ) :
    State S W × Mem W × List O :=
  let h := D.update r.1 (p.x t).raw
  (h, r.2.1.store (D.slot t) D.base h, r.2.2 ++ [D.output h (p.x t)])

/-- A step of the stock kernel, from slot `num_accepted - 1`. -/
def stock (m : Mem W) (p : Step S W) : Mem W × List O :=
  ((List.range p.n).foldl (D.stockToken p) (D.tile m (D.slot (p.acc - 1)), m, [])).2

/-- The memory after the steps of a run of the stock kernel. -/
def stockRun (m : Mem W) (ps : List (Step S W)) : Mem W := ps.foldl (fun m p => (D.stock m p).1) m

/-! ## The tile and its records -/

lemma recAt_add {t : ℕ} (ht : 1 ≤ t) {t' : ℕ} (h : t < t') : D.recAt t + S.REC ≤ D.recAt t' := by
  have hm : (t - 1 + 1) * S.REC ≤ (t' - 1) * S.REC := Nat.mul_le_mul_right _ (by omega)
  rw [Nat.succ_mul] at hm
  simp only [recAt]
  omega

lemma words_le_REC : S.K + S.BV + 2 ≤ S.REC := by
  simp only [Shape.REC]
  omega

/-- A record lies in the tile. -/
lemma recAt_le {t : ℕ} (ht : 1 ≤ t) (hw : t < S.WIN) :
    D.recAt t + S.REC ≤ D.base + S.BV * S.K := by
  have hm : (t - 1 + 1) * S.REC ≤ (S.WIN - 1) * S.REC := Nat.mul_le_mul_right _ (by omega)
  rw [Nat.succ_mul] at hm
  have hr : (S.WIN - 1) * S.REC ≤ S.BV * S.K := S.room
  simp only [recAt]
  omega

lemma base_le_recAt (t : ℕ) : D.base ≤ D.recAt t := Nat.le_add_right _ _

@[simp] lemma inputs_record (m : Mem W) (t : ℕ) (r : Inputs S W) :
    D.inputs (D.record m t r) t = r := by
  have hk : (D.record m t r).load (D.slot 1) (D.recAt t) S.K = r.k := by
    rw [record, Mem.load_store_apart _ _ _ (by omega), Mem.load_store_apart _ _ _ (by omega),
      Mem.load_store]
  have hv : (D.record m t r).load (D.slot 1) (D.recAt t + S.K) S.BV = r.v := by
    rw [record, Mem.load_store_apart _ _ _ (by omega), Mem.load_store]
  have hab : (D.record m t r).load (D.slot 1) (D.recAt t + S.K + S.BV) 2 = ![r.a, r.b] :=
    Mem.load_store _ _ _ _
  simp only [inputs, hk, hv, hab]
  rfl

lemma load_record_apart (m : Mem W) {t t' : ℕ} (r : Inputs S W) (ht : 1 ≤ t) (ht' : 1 ≤ t')
    (h : t' ≠ t) {off n : ℕ} (hlo : D.recAt t' ≤ off) (hhi : off + n ≤ D.recAt t' + S.REC) :
    (D.record m t r).load (D.slot 1) off n = m.load (D.slot 1) off n := by
  have hw := words_le_REC (S := S)
  have hap : off + n ≤ D.recAt t ∨ D.recAt t + S.REC ≤ off := by
    obtain hlt | hlt := Nat.lt_or_gt_of_ne h
    · have hrec := D.recAt_add ht' hlt
      exact .inl (by omega)
    · have hrec := D.recAt_add ht hlt
      exact .inr (by omega)
  rw [record, Mem.load_store_apart _ _ _ (by omega), Mem.load_store_apart _ _ _ (by omega),
    Mem.load_store_apart _ _ _ (by omega)]

lemma inputs_record_ne (m : Mem W) {t t' : ℕ} (r : Inputs S W) (ht : 1 ≤ t) (ht' : 1 ≤ t')
    (h : t' ≠ t) : D.inputs (D.record m t r) t' = D.inputs m t' := by
  have hw := words_le_REC (S := S)
  have hload {off n : ℕ} (hlo : D.recAt t' ≤ off) (hhi : off + n ≤ D.recAt t' + S.REC) :=
    D.load_record_apart m r ht ht' h hlo hhi
  simp only [inputs]
  rw [hload le_rfl (by omega), hload (by omega) (by omega), hload (by omega) (by omega)]

lemma tile_record_ne (m : Mem W) (t : ℕ) (r : Inputs S W) {s : ℤ} (h : s ≠ D.slot 1) :
    D.tile (D.record m t r) s = D.tile m s := by
  rw [tile, record, Mem.load_store_ne _ h, Mem.load_store_ne _ h, Mem.load_store_ne _ h]
  rfl

@[simp] lemma tile_store (m : Mem W) (s : ℤ) (f : State S W) :
    D.tile (m.store s D.base f) s = f := Mem.load_store _ _ _ _

lemma tile_store_ne (m : Mem W) {s s' : ℤ} (h : s' ≠ s) (f : State S W) :
    D.tile (m.store s D.base f) s' = D.tile m s' := Mem.load_store_ne _ h _ _ _ _

lemma record_outside (m : Mem W) {t : ℕ} (r : Inputs S W) (ht : 1 ≤ t) (hw : t < S.WIN) {s : ℤ}
    {o : ℕ} (h : o < D.base ∨ D.base + S.BV * S.K ≤ o) : D.record m t r s o = m s o := by
  have hrec := D.recAt_le ht hw
  have hbase := D.base_le_recAt t
  have hwords := words_le_REC (S := S)
  rw [record, Mem.store_outside _ _ _ (by omega) (by omega) h,
    Mem.store_outside _ _ _ (by omega) (by omega) h, Mem.store_outside _ _ _ hbase (by omega) h]

end Program

end SuffixHybrid.Gdn
