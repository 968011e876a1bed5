import SuffixHybrid.NvGemm.Tile

/-!
# What a block has done

For each phase what holds of a block: which stores its threads know or would release, the ticket and the flag,
shared memory and how often an element was written out. Each step of a thread keeps the facts of its phase,
and a barrier takes them to those of the next.
-/

namespace SuffixHybrid.NvGemm
open Lib

namespace Launch
variable {F B : Type} {L : Launch F B}

/-! ## Phases -/

/-- A block has drawn its ticket, and its flag tells whether it was the last. -/
def Ticketed (L : Launch F B) (b : Block F) : Prop := ∃ t, b.drawn = some t ∧ b.flag = decide (t = L.S - 1)

structure AtCompute (L : Launch F B) (x s : ℕ) (b : Block F) : Prop where
  drawn : b.drawn = none
  flag : b.flag = false
  count : ∀ o, b.count o = 0
  stored : ∀ tid, b.arrived tid = true → L.mine x s tid ⊆ b.fenced tid

structure AtDraw (L : Launch F B) (x s : ℕ) (b : Block F) : Prop where
  before : b.arrived 0 = false → b.drawn = none ∧ b.flag = false
  after : b.arrived 0 = true → L.Ticketed b ∧ (b.flag = true → L.all x ⊆ b.fenced 0)
  count : ∀ o, b.count o = 0
  stored : ∀ tid, L.own x s ⊆ b.fenced tid

section Sums
variable [Zero F]

structure AtEnter (L : Launch F B) (x : ℕ) (b : Block F) : Prop where
  ticketed : L.Ticketed b
  count : ∀ o, b.count o = 0
  fenced : b.flag = true → ∀ tid, L.all x ⊆ b.fenced tid
  knows : b.flag = true → ∀ tid, b.arrived tid = true → L.all x ⊆ b.known tid
  chunk : b.flag = true → ∀ i < L.cn 0 * L.tile, b.arrived (owner i) = true → b.smem i = L.want x 0 i
  sums : b.flag = true → ∀ o < L.tile, b.arrived (owner o) = true → b.smem (L.ch * L.tile + o) = 0

/-- What a block with the last ticket knows. -/
structure Summing (L : Launch F B) (x s0 : ℕ) (b : Block F) : Prop where
  lt : s0 < L.S
  ticketed : L.Ticketed b
  flag : b.flag = true
  knows : ∀ tid, L.all x ⊆ b.known tid

structure AtStage [Add F] (L : Launch F B) (x s0 : ℕ) (b : Block F) : Prop extends Summing L x s0 b where
  count : ∀ o, b.count o = 0
  chunk : ∀ i < L.cn s0 * L.tile, b.arrived (owner i) = true → b.smem i = L.want x s0 i
  sums : ∀ o < L.tile, x * 32 + o % 32 < L.N →
    b.smem (L.ch * L.tile + o) = L.total s0 (o / 32) (x * 32 + o % 32)

structure AtSum [Add F] (L : Launch F B) (x s0 : ℕ) (b : Block F) : Prop extends Summing L x s0 b where
  count : ∀ o, b.count o = if s0 + L.cn s0 = L.S ∧ o < L.tile ∧ x * 32 + o % 32 < L.N ∧
    b.arrived (owner o) = true then 1 else 0
  chunk : ∀ i < L.cn s0 * L.tile, b.smem i = L.want x s0 i
  before : ∀ o < L.tile, x * 32 + o % 32 < L.N → b.arrived (owner o) = false →
    b.smem (L.ch * L.tile + o) = L.total s0 (o / 32) (x * 32 + o % 32)
  after : s0 + L.cn s0 ≠ L.S → ∀ o < L.tile, x * 32 + o % 32 < L.N → b.arrived (owner o) = true →
    b.smem (L.ch * L.tile + o) = L.total (s0 + L.cn s0) (o / 32) (x * 32 + o % 32)

structure AtDone (L : Launch F B) (x : ℕ) (b : Block F) : Prop where
  ticketed : L.Ticketed b
  count : ∀ o, b.count o = if b.flag = true ∧ o < L.tile ∧ x * 32 + o % 32 < L.N then 1 else 0

/-- What holds of a block. -/
def Ok [Add F] (L : Launch F B) (x s : ℕ) (b : Block F) : Phase → Prop
  | .compute => L.AtCompute x s b
  | .draw => L.AtDraw x s b
  | .enter => L.AtEnter x b
  | .sum s0 => L.AtSum x s0 b
  | .stage s0 => L.AtStage x s0 b
  | .done => L.AtDone x b

end Sums

end Launch

/-! ## Threads -/

variable {F B : Type} {L : Launch F B} {x s : ℕ} {b : Block F} {tid : Fin 128}

lemma Block.arrived_arrive {t : Fin 128} :
    (b.arrive tid).arrived t = true ↔ t = tid ∨ b.arrived t = true := by
  by_cases h : t = tid
  · subst h
    simp only [Block.arrive, Function.update_self, true_or]
  · simp only [Block.arrive, Function.update_of_ne h, h, false_or]

lemma Block.of_not_arrived {t : Fin 128} (h : (b.arrive tid).arrived t = false) :
    t ≠ tid ∧ b.arrived t = false := by
  rw [← Bool.not_eq_true, Block.arrived_arrive, not_or, Bool.not_eq_true] at h
  exact h

namespace Launch

lemma AtCompute.compute (h : L.AtCompute x s b) :
    L.AtCompute x s (((b.store tid (L.mine x s tid)).fence tid).arrive tid) where
  drawn := h.drawn
  flag := h.flag
  count := h.count
  stored := by
    intro t ht a ha
    by_cases e : t = tid
    · subst e
      simp only [Block.arrive, Block.fence, Block.store, Function.update_self]
      exact .inl (.inr ha)
    · simp only [Block.arrive, Block.fence, Block.store, Function.update_of_ne e]
      exact h.stored t ((Block.arrived_arrive.mp ht).resolve_left e) ha

lemma AtCompute.sync (h : L.AtCompute x s b) (hall : ∀ tid, b.arrived tid = true) :
    L.AtDraw x s (b.sync L) where
  before := fun _ => ⟨h.drawn, h.flag⟩
  after := fun e => by cases e
  count := h.count
  stored := by
    rintro tid a ⟨row, hr, col, hc, rfl, rfl⟩
    obtain ⟨t, ht⟩ := exists_cells hr hc
    exact Set.mem_iUnion.mpr ⟨t, h.stored t (hall t) ⟨_, ht, rfl⟩⟩

lemma AtDraw.wait (h : L.AtDraw x s b) (h0 : tid ≠ 0) : L.AtDraw x s (b.arrive tid) where
  before := fun e => h.before (Block.of_not_arrived e).2
  after := fun e => h.after ((Block.arrived_arrive.mp e).resolve_left h0.symm)
  count := h.count
  stored := h.stored

/-- The last ticket comes with the stores of all splits. -/
lemma AtDraw.ticket (h : L.AtDraw x s b) {t : ℕ} {seen : Set ℕ}
    (hseen : t = L.S - 1 → L.all x ⊆ b.fenced 0 ∪ seen) :
    L.AtDraw x s ((b.draw L.S t seen).arrive 0) where
  before := fun e => absurd rfl (Block.of_not_arrived e).1
  after := by
    refine fun _ => ⟨⟨t, rfl, rfl⟩, fun hflag => ?_⟩
    simp only [Block.arrive, Block.draw, Function.update_self]
    exact hseen (of_decide_eq_true hflag)
  count := h.count
  stored := by
    intro tid a ha
    by_cases e : tid = 0
    · subst e
      simp only [Block.arrive, Block.draw, Function.update_self]
      exact .inl (h.stored 0 ha)
    · simp only [Block.arrive, Block.draw, Function.update_of_ne e]
      exact h.stored tid ha

section Sums
variable [Zero F]

lemma AtDraw.sync (h : L.AtDraw x s b) (hall : ∀ tid, b.arrived tid = true) : L.AtEnter x (b.sync L) where
  ticketed := (h.after (hall 0)).1
  count := h.count
  fenced := fun e _ _ ha => Set.mem_iUnion.mpr ⟨0, (h.after (hall 0)).2 e ha⟩
  knows := fun _ _ e => by cases e
  chunk := fun _ _ _ e => by cases e
  sums := fun _ _ _ e => by cases e

lemma AtEnter.leave (h : L.AtEnter x b) (hflag : b.flag = false) : L.AtEnter x (b.arrive tid) where
  ticketed := h.ticketed
  count := h.count
  fenced := h.fenced
  knows := fun e => by cases hflag.symm.trans e
  chunk := fun e => by cases hflag.symm.trans e
  sums := fun e => by cases hflag.symm.trans e

/-- What a thread that stages leaves in shared memory: at its own places of the chunk what it has read, and
nothing else changes. -/
lemma stage_smem {rd : ℕ → F} {s0 i : ℕ} :
    (L.stage x b rd s0 tid).smem i =
      if i < L.cn s0 * L.tile ∧ owner i = tid then L.part x rd s0 i else b.smem i := by
  rw [stage, Block.write]
  by_cases h : i < L.cn s0 * L.tile ∧ owner i = tid
  · rw [if_pos h]
    exact storeAll_map (fun i => i) (fun i => L.part x rd s0 i) b.smem (fun _ _ e => e)
      (mem_staged.mpr h)
  · rw [if_neg h]
    refine storeAll_map_of_ne (fun i => i) _ b.smem fun j hj e => ?_
    subst e
    exact h (mem_staged.mp hj)

lemma stage_sums {rd : ℕ → F} {s0 o : ℕ} (hs : s0 < L.S) :
    (L.stage x b rd s0 tid).smem (L.ch * L.tile + o) = b.smem (L.ch * L.tile + o) := by
  rw [stage_smem, if_neg]
  exact fun ⟨hlt, _⟩ => Nat.lt_irrefl _ (chunk_lt_sums hs hlt)

lemma zero_sums {o : ℕ} (ho : o < L.tile) :
    (L.zero b tid).smem (L.ch * L.tile + o) =
      if owner o = tid then 0 else b.smem (L.ch * L.tile + o) := by
  rw [zero, Block.write]
  by_cases h : owner o = tid
  · rw [if_pos h]
    exact storeAll_map (fun o => L.ch * L.tile + o) (fun _ => 0) b.smem
      (fun _ _ e => Nat.add_left_cancel e) (mem_summed.mpr ⟨ho, h⟩)
  · rw [if_neg h]
    refine storeAll_map_of_ne (fun o => L.ch * L.tile + o) _ b.smem fun j hj e => ?_
    cases Nat.add_left_cancel e
    exact h (mem_summed.mp hj).2

lemma zero_chunk {s0 i : ℕ} (hs : s0 < L.S) (hi : i < L.cn s0 * L.tile) :
    (L.zero b tid).smem i = b.smem i := by
  rw [zero, Block.write]
  refine storeAll_map_of_ne (fun o => L.ch * L.tile + o) _ b.smem fun j _ e => ?_
  exact Nat.lt_irrefl _ (e ▸ chunk_lt_sums hs hi)

lemma AtEnter.enter (h : L.AtEnter x b) (hflag : b.flag = true) {partials rd : ℕ → F}
    (hheld : (b.fence tid).known tid ⊆ L.held partials)
    (hrd : Sees ((b.fence tid).known tid) partials rd) :
    L.AtEnter x ((L.stage x (L.zero (b.fence tid) tid) rd 0 tid).arrive tid) where
  ticketed := h.ticketed
  count := h.count
  fenced := by
    intro _ t a ha
    by_cases e : t = tid
    · subst e
      change a ∈ (b.fence t).fenced t
      simp only [Block.fence, Function.update_self]
      exact .inr (h.fenced hflag t ha)
    · change a ∈ (b.fence tid).fenced t
      simp only [Block.fence, Function.update_of_ne e]
      exact h.fenced hflag t ha
  knows := by
    intro _ t ht a ha
    by_cases e : t = tid
    · subst e
      change a ∈ (b.fence t).known t
      simp only [Block.fence, Function.update_self]
      exact .inr (h.fenced hflag t ha)
    · change a ∈ (b.fence tid).known t
      simp only [Block.fence, Function.update_of_ne e]
      exact h.knows hflag t ((Block.arrived_arrive.mp ht).resolve_left e) ha
  chunk := by
    intro _ i hi harr
    have hS : 0 < L.S := Nat.lt_of_lt_of_le Nat.zero_lt_two L.two_le
    have hall : L.all x ⊆ (b.fence tid).known tid := fun a ha => by
      simp only [Block.fence, Function.update_self]
      exact .inr (h.fenced hflag tid ha)
    refine (stage_smem (b := L.zero (b.fence tid) tid)).trans ?_
    by_cases e : owner i = tid
    · rw [if_pos ⟨hi, e⟩]
      exact part_eq hS hi hall hheld hrd
    · rw [if_neg fun h => e h.2, zero_chunk hS hi]
      exact h.chunk hflag i hi ((Block.arrived_arrive.mp harr).resolve_left e)
  sums := by
    intro _ o ho harr
    have hS : 0 < L.S := Nat.lt_of_lt_of_le Nat.zero_lt_two L.two_le
    refine (stage_sums (b := L.zero (b.fence tid) tid) hS).trans ((zero_sums ho).trans ?_)
    by_cases e : owner o = tid
    · rw [if_pos e]
    · rw [if_neg e]
      exact h.sums hflag o ho ((Block.arrived_arrive.mp harr).resolve_left e)

variable [Add F]

/-- Behind the first chunk the last block goes on to sum it. -/
lemma AtEnter.sync (h : L.AtEnter x b) (hall : ∀ tid, b.arrived tid = true) :
    L.Ok x s (b.sync L) (L.next b .enter) := by
  rw [next]
  by_cases hflag : b.flag = true
  · rw [if_pos hflag]
    constructor
    case toSumming =>
      exact ⟨Nat.lt_of_lt_of_le Nat.zero_lt_two L.two_le, h.ticketed, hflag,
        fun tid => h.knows hflag tid (hall tid)⟩
    case count =>
      intro o
      rw [if_neg fun e => by cases e.2.2.2]
      exact h.count o
    case chunk => exact fun i hi => h.chunk hflag i hi (hall _)
    case before => exact fun o ho _ _ => h.sums hflag o ho (hall _)
    case after => exact fun _ _ _ _ e => by cases e
  · rw [if_neg hflag]
    refine ⟨h.ticketed, fun o => ?_⟩
    rw [if_neg fun e => hflag e.1]
    exact h.count o

variable {s0 : ℕ}

lemma AtStage.stage (h : L.AtStage x s0 b) {partials rd : ℕ → F} (hheld : b.known tid ⊆ L.held partials)
    (hrd : Sees (b.known tid) partials rd) :
    L.AtStage x s0 ((L.stage x b rd s0 tid).arrive tid) where
  toSumming := ⟨h.lt, h.ticketed, h.flag, h.knows⟩
  count := h.count
  chunk := by
    intro i hi harr
    refine (stage_smem (b := b)).trans ?_
    by_cases e : owner i = tid
    · rw [if_pos ⟨hi, e⟩]
      exact part_eq h.lt hi (h.knows tid) hheld hrd
    · rw [if_neg fun h => e h.2]
      exact h.chunk i hi ((Block.arrived_arrive.mp harr).resolve_left e)
  sums := fun o ho hc => (stage_sums h.lt).trans (h.sums o ho hc)

lemma AtStage.sync (h : L.AtStage x s0 b) (hall : ∀ tid, b.arrived tid = true) :
    L.AtSum x s0 (b.sync L) where
  toSumming := ⟨h.lt, h.ticketed, h.flag, h.knows⟩
  count := by
    intro o
    rw [if_neg fun e => by cases e.2.2.2]
    exact h.count o
  chunk := fun i hi => h.chunk i hi (hall _)
  before := fun o ho hc _ => h.sums o ho hc
  after := fun _ _ _ _ e => by cases e

/-- The sum of an element by a thread that has not arrived. -/
lemma AtSum.addUp (h : L.AtSum x s0 b) (harr : b.arrived tid = false) {o : ℕ} (ho : o ∈ L.inOut x tid) :
    L.addUp b.smem s0 o = L.total (s0 + L.cn s0) (o / 32) (x * 32 + o % 32) := by
  obtain ⟨hlt, rfl, hc⟩ := mem_inOut.mp ho
  exact addUp_eq hlt hc h.chunk (h.before o hlt hc harr)

lemma AtSum.last (h : L.AtSum x s0 b) (hlast : s0 + L.cn s0 = L.S) (harr : b.arrived tid = false) :
    L.AtSum x s0 ((b.emit (L.inOut x tid)).arrive tid) where
  toSumming := ⟨h.lt, h.ticketed, h.flag, h.knows⟩
  count := by
    intro o
    have harr' := @Block.arrived_arrive F (b.emit (L.inOut x tid)) tid (owner o)
    have e : ((b.emit (L.inOut x tid)).arrive tid).count o = b.count o + (L.inOut x tid).count o := rfl
    rw [e]
    by_cases hown : owner o = tid
    · have h0 : b.count o = 0 := (h.count o).trans (if_neg fun h' => by
        rw [hown, harr] at h'
        cases h'.2.2.2)
      rw [h0, Nat.zero_add, count_inOut]
      refine if_congr ?_ rfl rfl
      exact ⟨fun h' => ⟨hlast, h'.1, h'.2.2, harr'.mpr (.inl hown)⟩, fun h' => ⟨h'.2.1, hown, h'.2.2.1⟩⟩
    · have h0 : (L.inOut x tid).count o = 0 := count_inOut.trans (if_neg fun h' => hown h'.2.1)
      rw [h0, Nat.add_zero, h.count o]
      refine if_congr ?_ rfl rfl
      rw [harr', or_iff_right hown]
      rfl
  chunk := h.chunk
  before := fun o ho hc e => h.before o ho hc (Block.of_not_arrived e).2
  after := fun e => absurd hlast e

lemma AtSum.more (h : L.AtSum x s0 b) (hmore : s0 + L.cn s0 ≠ L.S) (harr : b.arrived tid = false) :
    L.AtSum x s0 ((b.write ((L.inOut x tid).map fun o =>
      (L.ch * L.tile + o, L.addUp b.smem s0 o))).arrive tid) where
  toSumming := ⟨h.lt, h.ticketed, h.flag, h.knows⟩
  count := by
    intro o
    rw [if_neg fun e => hmore e.1]
    refine (h.count o).trans (if_neg fun e => hmore e.1)
  chunk := by
    intro i hi
    refine (storeAll_map_of_ne (fun o => L.ch * L.tile + o) _ b.smem fun j _ e => ?_).trans
      (h.chunk i hi)
    exact Nat.lt_irrefl _ (e ▸ chunk_lt_sums h.lt hi)
  before := by
    intro o ho hc e
    obtain ⟨hne, hb⟩ := Block.of_not_arrived e
    refine (storeAll_map_of_ne (fun o => L.ch * L.tile + o) _ b.smem fun j hj e => ?_).trans
      (h.before o ho hc hb)
    cases Nat.add_left_cancel e
    exact hne (mem_inOut.mp hj).2.1
  after := by
    intro _ o ho hc e
    by_cases hown : owner o = tid
    · have hmem := mem_inOut.mpr ⟨ho, hown, hc⟩
      exact (storeAll_map (fun o => L.ch * L.tile + o) (fun o => L.addUp b.smem s0 o) b.smem
        (fun _ _ e => Nat.add_left_cancel e) hmem).trans (h.addUp harr hmem)
    · refine (storeAll_map_of_ne (fun o => L.ch * L.tile + o) _ b.smem fun j hj e => ?_).trans
        (h.after hmore o ho hc ((Block.arrived_arrive.mp e).resolve_left hown))
      cases Nat.add_left_cancel e
      exact hown (mem_inOut.mp hj).2.1

/-- Behind the last chunk the block is done, behind another it stages the next. -/
lemma AtSum.sync (h : L.AtSum x s0 b) (hall : ∀ tid, b.arrived tid = true) :
    L.Ok x s (b.sync L) (L.next b (.sum s0)) := by
  rw [next]
  by_cases hlast : s0 + L.cn s0 = L.S
  · rw [if_pos hlast]
    refine ⟨h.ticketed, fun o => (h.count o).trans ?_⟩
    refine if_congr ?_ rfl rfl
    exact ⟨fun h' => ⟨h.flag, h'.2.1, h'.2.2.1⟩, fun h' => ⟨hlast, h'.2.1, h'.2.2, hall _⟩⟩
  · rw [if_neg hlast]
    have hle := cn_le h.lt
    constructor
    case toSumming => exact ⟨by omega, h.ticketed, h.flag, h.knows⟩
    case count => exact fun o => (h.count o).trans (if_neg fun e => hlast e.1)
    case chunk => exact fun _ _ e => by cases e
    case sums => exact fun o ho hc => h.after hlast o ho hc (hall _)

/-- A barrier. -/
theorem Ok.sync {p : Phase} (h : L.Ok x s b p) (hp : p ≠ .done) (hall : ∀ tid, b.arrived tid = true) :
    L.Ok x s (b.sync L) (L.next b p) := by
  cases p with
  | compute => exact AtCompute.sync h hall
  | draw => exact AtDraw.sync h hall
  | enter => exact AtEnter.sync h hall
  | sum s0 => exact AtSum.sync h hall
  | stage s0 => exact AtStage.sync h hall
  | done => exact absurd rfl hp

end Sums

end Launch

end SuffixHybrid.NvGemm
