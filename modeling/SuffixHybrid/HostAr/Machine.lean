import Mathlib.Algebra.BigOperators.Group.Finset.Basic
import Mathlib.Logic.Function.Basic
import Mathlib.Logic.Relation
import SuffixHybrid.HostAr.Basic

/-!
# The barrier machine

The blocks of all ranks run their collectives on one memory, in any interleaving of its accesses. A rank is an automaton
(`Script.RankStep`) with the words that only its own blocks use: the epoch counter, the arrival counters and the go words. Its
events (`Event`) are its accesses of the host buffer: the slots, and the flag lines that `_barrier` publishes and polls.

Memory is sequentially consistent. A block does the accesses of a part in any order, as its threads do, and arrives at
the barrier with none left. The trap of a poll that takes too long ends a run early, and the prefetch changes no word:
both are left out.
-/

namespace SuffixHybrid.HostAr

/-- An access of a slot. -/
inductive Op where
  | load (a : Access)
  | store (a : Access)

/-- A launch of a collective: its rounds, whether they have a second barrier, and the blocks of each rank. -/
structure Call where
  rounds : ℕ
  two : Bool
  grid : ℕ → ℕ

/-- The number of barriers in a round. -/
def Call.width (c : Call) : ℕ := if c.two then 2 else 1

/-- `final` at the last barrier. -/
def Call.Final (c : Call) (rnd ph : ℕ) : Prop := rnd + 1 = c.rounds ∧ ph + 1 = c.width

instance (c : Call) (rnd ph : ℕ) : Decidable (c.Final rnd ph) := inferInstanceAs (Decidable (_ ∧ _))

/-- The launches of a run, the same on every rank, and the accesses of a block in a part of a round. -/
structure Script where
  world : ℕ
  call : ℕ → Call
  ops : ℕ → ℕ → ℕ → ℕ → ℕ → List Op

/-! ## Ranks -/

/-- Where the last block to arrive is in `_barrier`. -/
inductive Stage where
  | elected
  | cleared
  | counted
  | polling (seen : List ℕ)

/-- Where a block is. The parts of a round are before its first barrier, behind it, and behind its second one. -/
inductive PC where
  | start
  | work (rnd part : ℕ) (todo : List Op)
  | wait (rnd ph : ℕ)
  | lead (rnd ph : ℕ) (stage : Stage)
  | done

/-- A block, with its `ctr0`. -/
structure Block where
  ctr0 : ℕ
  pc : PC

/-- A rank: its launch and blocks, and the words of its device. -/
structure Rank where
  launch : ℕ
  block : ℕ → Block
  ctr : ℕ
  arr : ℕ → ℕ
  go : ℕ → ℕ

/-- What a step of a rank does to the host buffer. A store has the bytes of its word, and carries the epoch of its round. -/
inductive Event (V : Type) where
  | tau
  | load (a : Access)
  | store (a : Access) (x : ℕ → V) (e : ℕ)
  | publish (par ph w : ℕ)
  | poll (par ph j w : ℕ)
  | miss (par ph j w : ℕ)

/-- `epoch`, from a block's own `ctr0`. -/
def Block.epoch (B : Block) (rnd : ℕ) : ℕ := (B.ctr0 + (rnd + 1)) % 2 ^ 32

namespace Rank

/-- A block goes on. -/
def move (R : Rank) (b : ℕ) (pc : PC) : Rank :=
  { R with block := Function.update R.block b { R.block b with pc := pc } }

end Rank

namespace Script
variable (S : Script)

/-- The rounds of all launches before one. -/
def before (l : ℕ) : ℕ := ∑ i ∈ Finset.range l, (S.call i).rounds

/-- The epoch of a round, as a number. -/
def epoch (l rnd : ℕ) : ℕ := S.before l + rnd + 1

/-- What a block does behind a part that ends with no barrier. -/
def following (l r rnd b : ℕ) : PC :=
  if rnd + 1 < (S.call l).rounds then .work (rnd + 1) 0 (S.ops l r (rnd + 1) 0 b) else .done

/-- What a block does when it has read `ctr`. -/
def first (l r b : ℕ) : PC := if 0 < (S.call l).rounds then .work 0 0 (S.ops l r 0 0 b) else .done

/-- What a block does behind a barrier. -/
def behind (l r rnd ph b : ℕ) : PC := .work rnd (ph + 1) (S.ops l r rnd (ph + 1) b)

/-- The steps of a rank. -/
inductive RankStep {V : Type} (r : ℕ) (R : Rank) : Event V → Rank → Prop where
  | launch (hdone : ∀ b < (S.call R.launch).grid r, (R.block b).pc = .done) :
    RankStep r R .tau { R with launch := R.launch + 1, block := fun _ => ⟨0, .start⟩ }
  | start {b} (hb : b < (S.call R.launch).grid r) (hpc : (R.block b).pc = .start) :
    RankStep r R .tau { R with block := Function.update R.block b ⟨R.ctr, S.first R.launch r b⟩ }
  | load {b rnd part a todo todo'} (hb : b < (S.call R.launch).grid r)
      (hpc : (R.block b).pc = .work rnd part (todo ++ .load a :: todo')) :
    RankStep r R (.load a) (R.move b (.work rnd part (todo ++ todo')))
  | store {b rnd part a x todo todo'} (hb : b < (S.call R.launch).grid r)
      (hpc : (R.block b).pc = .work rnd part (todo ++ .store a :: todo')) :
    RankStep r R (.store a x (S.epoch R.launch rnd)) (R.move b (.work rnd part (todo ++ todo')))
  | next {b rnd part} (hb : b < (S.call R.launch).grid r) (hpc : (R.block b).pc = .work rnd part [])
      (hpart : part = (S.call R.launch).width) :
    RankStep r R .tau (R.move b (S.following R.launch r rnd b))
  | arrive {b rnd ph} (hb : b < (S.call R.launch).grid r) (hpc : (R.block b).pc = .work rnd ph [])
      (hph : ph < (S.call R.launch).width) (hold : R.arr ph ≠ (S.call R.launch).grid r - 1) :
    RankStep r R .tau { R.move b (.wait rnd ph) with arr := Function.update R.arr ph (R.arr ph + 1) }
  | last {b rnd ph} (hb : b < (S.call R.launch).grid r) (hpc : (R.block b).pc = .work rnd ph [])
      (hph : ph < (S.call R.launch).width) (hold : R.arr ph = (S.call R.launch).grid r - 1) :
    RankStep r R .tau { R.move b (.lead rnd ph .elected) with arr := Function.update R.arr ph (R.arr ph + 1) }
  | clear {b rnd ph} (hb : b < (S.call R.launch).grid r) (hpc : (R.block b).pc = .lead rnd ph .elected) :
    RankStep r R .tau { R.move b (.lead rnd ph .cleared) with arr := Function.update R.arr ph 0 }
  | count {b rnd ph} (hb : b < (S.call R.launch).grid r) (hpc : (R.block b).pc = .lead rnd ph .cleared) :
    RankStep r R .tau { R.move b (.lead rnd ph .counted) with
      ctr := if (S.call R.launch).Final rnd ph then ((R.block b).ctr0 + (S.call R.launch).rounds) % 2 ^ 32 else R.ctr }
  | publish {b rnd ph} (hb : b < (S.call R.launch).grid r) (hpc : (R.block b).pc = .lead rnd ph .counted) :
    RankStep r R (.publish ((R.block b).epoch rnd % 2) ph ((R.block b).epoch rnd))
      (R.move b (.lead rnd ph (.polling [])))
  | poll {b rnd ph seen j} (hb : b < (S.call R.launch).grid r)
      (hpc : (R.block b).pc = .lead rnd ph (.polling seen)) (hj : j < S.world) (hseen : j ∉ seen) :
    RankStep r R (.poll ((R.block b).epoch rnd % 2) ph j ((R.block b).epoch rnd))
      (R.move b (.lead rnd ph (.polling (j :: seen))))
  | miss {b rnd ph seen j w} (hb : b < (S.call R.launch).grid r)
      (hpc : (R.block b).pc = .lead rnd ph (.polling seen)) (hj : j < S.world) (hseen : j ∉ seen)
      (hw : w ≠ (R.block b).epoch rnd) :
    RankStep r R (.miss ((R.block b).epoch rnd % 2) ph j w) (R.move b (.lead rnd ph (.polling [])))
  | release {b rnd ph seen} (hb : b < (S.call R.launch).grid r)
      (hpc : (R.block b).pc = .lead rnd ph (.polling seen)) (hall : ∀ j < S.world, j ∈ seen) :
    RankStep r R .tau { R.move b (S.behind R.launch r rnd ph b) with
      go := Function.update R.go ph ((R.block b).epoch rnd) }
  | pass {b rnd ph} (hb : b < (S.call R.launch).grid r) (hpc : (R.block b).pc = .wait rnd ph)
      (hgo : R.go ph = (R.block b).epoch rnd) :
    RankStep r R .tau (R.move b (S.behind R.launch r rnd ph b))

end Script

/-! ## The machine -/

/-- The ranks, the flag lines by parity, phase and rank, and the bytes of the slots, each marked with the epoch of the
round that stored it. -/
structure State (V : Type) where
  rank : ℕ → Rank
  flag : ℕ → ℕ → ℕ → ℕ
  mem : ℕ → V × ℕ

namespace State
variable {V : Type}

/-- A flag line has the word that is polled. -/
def Allows (s : State V) : Event V → Prop
  | .poll par ph j w => s.flag par ph j = w
  | .miss par ph j w => s.flag par ph j = w
  | _ => True

/-- The state after an event of rank `r`. -/
def apply (s : State V) (r : ℕ) (R : Rank) : Event V → State V
  | .store a x e =>
    { s with
      rank := Function.update s.rank r R
      mem := fun i => if a.addr ≤ i ∧ i < a.addr + a.size then (x (i - a.addr), e) else s.mem i }
  | .publish par ph w =>
    { s with
      rank := Function.update s.rank r R
      flag := Function.update s.flag par (Function.update (s.flag par) ph (Function.update (s.flag par ph) r w)) }
  | _ => { s with rank := Function.update s.rank r R }

end State

namespace Script
variable (S : Script) {V : Type}

/-- A step of a rank. -/
inductive Step (s : State V) : State V → Prop where
  | mk {r ev R} (hr : r < S.world) (hstep : S.RankStep r (s.rank r) ev R) (hev : s.Allows ev) :
    Step s (s.apply r R ev)

/-- Before the first launch: all words are 0, and the slots have any content. -/
def init (mem : ℕ → V) : State V where
  rank _ := ⟨0, fun _ => ⟨0, .start⟩, 0, fun _ => 0, fun _ => 0⟩
  flag _ _ _ := 0
  mem i := (mem i, 0)

/-- The states of all runs. -/
def Reachable (s : State V) : Prop := ∃ mem, Relation.ReflTransGen S.Step (init mem) s

end Script
end SuffixHybrid.HostAr

/-!
## The order of the barriers

Every barrier of a run has a number: `2 * epoch` for the first one of a round and `2 * epoch + 1` for the second one.
`Script.key` is the number of the barrier at the end of a part. `Script.Line` says which epoch is in a flag line, or in a
go word, when all barriers below a number have written theirs.

Words are 32 bits wide and are compared for equality. `Script.Fresh` is what this takes: a word of the second barrier must
not stay unwritten for `2 ^ 32` epochs. Each round writes the words of the first barrier.
-/

namespace SuffixHybrid.HostAr

namespace Call
variable (c : Call)

lemma width_le : c.width ≤ 2 := by
  rw [width]
  split <;> omega

lemma width_pos : 0 < c.width := by
  rw [width]
  split <;> omega

end Call

namespace Script
variable (S : Script)

/-- An epoch has a barrier of this phase. -/
def Used (ph e : ℕ) : Prop := ∃ l rnd, rnd < (S.call l).rounds ∧ ph < (S.call l).width ∧ S.epoch l rnd = e

/-- The second barriers of one parity are less than `2 ^ 32` epochs apart. -/
def Fresh : Prop := ∀ e, S.Used 1 e → 2 ^ 32 ≤ e → ∃ e', S.Used 1 e' ∧ e' % 2 = e % 2 ∧ e < e' + 2 ^ 32 ∧ e' < e

/-- The number of the barrier at the end of a part, or behind it. -/
def key (l rnd part : ℕ) : ℕ :=
  if part < (S.call l).width then 2 * S.epoch l rnd + part else 2 * (S.epoch l rnd + 1)

/-- The number of the first barrier of a launch, or behind it. -/
def edge (l : ℕ) : ℕ := 2 * (S.before l + 1)

/-- A number that a rank can be at. -/
def Position (k : ℕ) : Prop := k % 2 = 1 → S.Used 1 (k / 2)

/-- The epoch in a word that the barriers of a phase write, those of the epochs in `P`: the last one below a number. -/
def Line (P : ℕ → Prop) (ph k f : ℕ) : Prop :=
  (f = 0 ∨ S.Used ph f ∧ P f ∧ 2 * f + ph < k) ∧ ∀ e, S.Used ph e → P e → 2 * e + ph < k → e ≤ f

variable {S}

/-! ## Epochs -/

lemma before_succ (l : ℕ) : S.before (l + 1) = S.before l + (S.call l).rounds := Finset.sum_range_succ _ _

lemma before_mono {l l' : ℕ} (h : l ≤ l') : S.before l ≤ S.before l' := by
  induction l', h using Nat.le_induction with
  | base => exact Nat.le_refl _
  | succ n _ ih =>
    rw [before_succ]
    exact ih.trans (Nat.le_add_right _ _)

lemma epoch_le {l rnd : ℕ} (hrnd : rnd < (S.call l).rounds) : S.epoch l rnd ≤ S.before (l + 1) := by
  rw [before_succ, epoch]
  omega

lemma launch_le {l l' rnd rnd' : ℕ} (hrnd : rnd < (S.call l).rounds) (h : S.epoch l' rnd' ≤ S.epoch l rnd) : l' ≤ l := by
  by_contra hlt
  have hle : S.epoch l rnd ≤ S.before (l + 1) := epoch_le hrnd
  have hmono : S.before (l + 1) ≤ S.before l' := before_mono (Nat.lt_of_not_le hlt)
  rw [epoch] at h
  omega

/-- An epoch belongs to one round. -/
lemma epoch_inj {l l' rnd rnd' : ℕ} (hrnd : rnd < (S.call l).rounds) (hrnd' : rnd' < (S.call l').rounds)
    (h : S.epoch l rnd = S.epoch l' rnd') : l = l' ∧ rnd = rnd' := by
  obtain rfl : l = l' := Nat.le_antisymm (launch_le hrnd' (Nat.le_of_eq h)) (launch_le hrnd (Nat.le_of_eq h.symm))
  rw [epoch, epoch] at h
  exact ⟨rfl, by omega⟩

lemma exists_epoch {l e : ℕ} (hpos : 0 < e) (hle : e ≤ S.before l) :
    ∃ l' rnd, rnd < (S.call l').rounds ∧ S.epoch l' rnd = e := by
  induction l with
  | zero =>
    rw [before, Finset.sum_range_zero] at hle
    omega
  | succ l ih =>
    by_cases hlt : e ≤ S.before l
    · exact ih hlt
    · rw [before_succ] at hle
      exact ⟨l, e - S.before l - 1, by omega, by rw [epoch]; omega⟩

lemma Used.pos {ph e : ℕ} (h : S.Used ph e) : 0 < e := by
  obtain ⟨l, rnd, _, _, rfl⟩ := h
  exact Nat.succ_pos _

lemma Used.lt_two {ph e : ℕ} (h : S.Used ph e) : ph < 2 := by
  obtain ⟨l, _, _, hph, _⟩ := h
  exact Nat.lt_of_lt_of_le hph (S.call l).width_le

/-- The epochs up to a used one have a first barrier. -/
lemma Used.first {ph e e' : ℕ} (h : S.Used ph e) (hpos : 0 < e') (hle : e' ≤ e) : S.Used 0 e' := by
  obtain ⟨l, rnd, hrnd, _, rfl⟩ := h
  obtain ⟨l', rnd', hrnd', he⟩ := exists_epoch hpos (hle.trans (epoch_le hrnd))
  exact ⟨l', rnd', hrnd', (S.call l').width_pos, he⟩

lemma Used.of_round {l rnd ph : ℕ} (hrnd : rnd < (S.call l).rounds) (hph : ph < (S.call l).width) :
    S.Used ph (S.epoch l rnd) := ⟨l, rnd, hrnd, hph, rfl⟩

lemma Used.lt_width {l rnd ph : ℕ} (h : S.Used ph (S.epoch l rnd)) (hrnd : rnd < (S.call l).rounds) :
    ph < (S.call l).width := by
  obtain ⟨l', rnd', hrnd', hph, he⟩ := h
  obtain ⟨rfl, _⟩ := epoch_inj hrnd' hrnd he
  exact hph

/-! ## Numbers -/

lemma key_of_lt {l rnd part : ℕ} (h : part < (S.call l).width) : S.key l rnd part = 2 * S.epoch l rnd + part := if_pos h

lemma key_width (l rnd : ℕ) : S.key l rnd (S.call l).width = 2 * (S.epoch l rnd + 1) := if_neg (Nat.lt_irrefl _)

lemma key_le (l rnd part : ℕ) : S.key l rnd part ≤ 2 * (S.epoch l rnd + 1) := by
  have := (S.call l).width_le
  rw [key]
  split <;> omega

lemma lt_key_succ {l rnd ph : ℕ} (hph : ph < (S.call l).width) : 2 * S.epoch l rnd + ph < S.key l rnd (ph + 1) := by
  have := (S.call l).width_le
  rw [key]
  split <;> omega

/-- Behind the last part of a round comes the first part of the next one. -/
lemma key_next (l rnd : ℕ) : S.key l (rnd + 1) 0 = S.key l rnd (S.call l).width := by
  rw [key_width, key_of_lt (S.call l).width_pos, Nat.add_zero]
  rfl

lemma key_end {l rnd : ℕ} (hrnd : rnd + 1 = (S.call l).rounds) : S.edge (l + 1) = S.key l rnd (S.call l).width := by
  rw [key_width, edge, before_succ, ← hrnd]
  rfl

lemma key_zero (l : ℕ) : S.key l 0 0 = S.edge l := by
  rw [key_of_lt (S.call l).width_pos]
  rfl

lemma edge_mono {l l' : ℕ} (h : l ≤ l') : S.edge l ≤ S.edge l' :=
  Nat.mul_le_mul_left _ (Nat.add_le_add_right (before_mono h) _)

lemma edge_empty {l : ℕ} (h : ¬ 0 < (S.call l).rounds) : S.edge l = S.edge (l + 1) := by
  rw [edge, edge, before_succ, Nat.eq_zero_of_not_pos h, Nat.add_zero]

/-- A barrier of a launch comes before its end. -/
lemma lt_edge {l rnd ph : ℕ} (hrnd : rnd < (S.call l).rounds) (hph : ph < (S.call l).width) :
    2 * S.epoch l rnd + ph < S.edge (l + 1) := by
  have := epoch_le hrnd
  have := (S.call l).width_le
  rw [edge]
  omega

lemma edge_le {l rnd part : ℕ} : S.edge l ≤ S.key l rnd part := by
  rw [key, edge, epoch]
  split <;> omega

/-- Only the last barrier of a launch comes right before its end. -/
lemma key_succ_eq_iff {l rnd ph : ℕ} (hph : ph < (S.call l).width) :
    S.key l rnd (ph + 1) = S.edge (l + 1) ↔ (S.call l).Final rnd ph := by
  have hle := (S.call l).width_le
  rw [key, edge, before_succ, epoch, Call.Final]
  split <;> omega

lemma position_edge (l : ℕ) : S.Position (S.edge l) := by
  intro h
  rw [edge] at h
  omega

lemma position_key {l rnd part : ℕ} (hrnd : rnd < (S.call l).rounds) : S.Position (S.key l rnd part) := by
  intro h
  have hle := (S.call l).width_le
  rw [key] at h ⊢
  split at h
  · rename_i hpart
    rw [if_pos hpart]
    obtain rfl : part = 1 := by omega
    rw [show (2 * S.epoch l rnd + 1) / 2 = S.epoch l rnd by omega]
    exact .of_round hrnd hpart
  · omega

/-- There is nothing between a barrier and the next one. -/
lemma lt_key_succ_iff {l rnd ph ph' e : ℕ} (hrnd : rnd < (S.call l).rounds) (hph : ph < (S.call l).width)
    (he : S.Used ph' e) :
    2 * e + ph' < S.key l rnd (ph + 1) ↔ 2 * e + ph' < 2 * S.epoch l rnd + ph ∨ e = S.epoch l rnd ∧ ph' = ph := by
  have hle := (S.call l).width_le
  have hlt := he.lt_two
  have hwidth (heq : e = S.epoch l rnd) : ph' < (S.call l).width := (heq ▸ he).lt_width hrnd
  rw [key]
  split <;> omega

lemma key_succ_le {l rnd ph k : ℕ} (hrnd : rnd < (S.call l).rounds) (hph : ph < (S.call l).width) (hk : S.Position k)
    (hlt : 2 * S.epoch l rnd + ph < k) : S.key l rnd (ph + 1) ≤ k := by
  by_contra hnot
  have hle := S.key_le l rnd (ph + 1)
  have hodd : k = 2 * S.epoch l rnd + 1 := by omega
  have hused := hk (by omega)
  rw [hodd, show (2 * S.epoch l rnd + 1) / 2 = S.epoch l rnd by omega] at hused
  have hwidth := hused.lt_width hrnd
  obtain rfl : ph = 0 := by omega
  rw [key_of_lt hwidth] at hnot
  omega

/-! ## Words -/

namespace Line
variable {P : ℕ → Prop} {ph k f : ℕ}

/-- Before the first barrier. -/
lemma zero : S.Line P ph (S.edge 0) 0 := by
  refine ⟨.inl rfl, fun e he _ hlt => ?_⟩
  have := he.pos
  rw [edge, before, Finset.sum_range_zero] at hlt
  omega

variable {l rnd ph' : ℕ} (hrnd : rnd < (S.call l).rounds) (hph : ph' < (S.call l).width)
include hrnd hph

/-- A barrier writes its epoch to the word of its phase. -/
lemma write (hP : P (S.epoch l rnd)) :
    S.Line P ph' (S.key l rnd (ph' + 1)) (S.epoch l rnd) := by
  refine ⟨.inr ⟨.of_round hrnd hph, hP, lt_key_succ hph⟩, fun e he hPe hlt => ?_⟩
  rcases (lt_key_succ_iff hrnd hph he).mp hlt with hlt | ⟨rfl, _⟩
  · omega
  · exact Nat.le_refl _

/-- It leaves the other words as they are. -/
lemma keep (h : S.Line P ph (2 * S.epoch l rnd + ph') f) (hne : ph = ph' → ¬ P (S.epoch l rnd)) :
    S.Line P ph (S.key l rnd (ph' + 1)) f := by
  refine ⟨h.1.imp id fun hf => ⟨hf.1, hf.2.1, ?_⟩, fun e he hPe hlt => ?_⟩
  · exact hf.2.2.trans (lt_key_succ hph)
  · rcases (lt_key_succ_iff hrnd hph he).mp hlt with hlt | ⟨rfl, heq⟩
    · exact h.2 e he hPe hlt
    · exact absurd hPe (hne heq)

omit hrnd hph

/-- A word does not have an epoch before it is written. -/
lemma ne (hfresh : S.Fresh) {e : ℕ} (h : S.Line P ph (2 * e + ph) f) (he : S.Used ph e)
    (hP : ∀ e', e' % 2 = e % 2 → P e') : f % 2 ^ 32 ≠ e % 2 ^ 32 := by
  have hpos := he.pos
  have hlt : f < e := by
    rcases h.1 with rfl | ⟨_, _, hf⟩
    · exact hpos
    · omega
  by_cases hsmall : e < 2 ^ 32
  · rw [Nat.mod_eq_of_lt hsmall, Nat.mod_eq_of_lt (hlt.trans hsmall)]
    exact Nat.ne_of_lt hlt
  · have hprev : ∃ e', S.Used ph e' ∧ e' % 2 = e % 2 ∧ e < e' + 2 ^ 32 ∧ e' < e := by
      obtain rfl | rfl : ph = 0 ∨ ph = 1 := by have := he.lt_two; omega
      · exact ⟨e - 2, he.first (by omega) (Nat.sub_le _ _), by omega, by omega, by omega⟩
      · exact hfresh e he (Nat.le_of_not_lt hsmall)
    obtain ⟨e', he', hpar, hnear, hbelow⟩ := hprev
    have hle := h.2 e' he' (hP e' hpar) (by omega)
    omega

/-- It has the epoch from then on, until the next epoch of the word is written. -/
lemma eq (h : S.Line P ph k f) {e : ℕ} (he : S.Used ph e) (hP : P e) (hlt : 2 * e + ph < k)
    (hlast : ∀ e', P e' → 2 * e' + ph < k → e' ≤ e) : f = e := by
  refine Nat.le_antisymm ?_ (h.2 e he hP hlt)
  rcases h.1 with rfl | ⟨_, hPf, hf⟩
  · exact Nat.zero_le _
  · exact hlast f hPf hf

end Line
end Script
end SuffixHybrid.HostAr
