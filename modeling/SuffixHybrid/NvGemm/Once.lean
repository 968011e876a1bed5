import Mathlib.Algebra.Order.BigOperators.Group.Finset
import SuffixHybrid.NvGemm.Fixup

/-!
# Every tile is reduced once

The invariant of a sequence of launches: what each block has done, the tickets of each column tile, and what
they have released. In each launch one block of a column tile gets the last ticket; it reads only complete
partial sums and writes every element of the tile once, as `nvfp4_splitk_reduce` does, and when the launch has
ended the counters are 0.
-/

namespace SuffixHybrid.NvGemm
open Lib

variable {F B : Type} {L : Launch F B} {st st' : St F B} {x s : ℕ} {tid : Fin 128}

/-! ## Blocks -/

lemma St.blocks_set {b : Block F} {x' s' : ℕ} :
    (st.set x s b).blocks x' s' = if x' = x ∧ s' = s then b else st.blocks x' s' := by
  by_cases hx : x' = x
  · subst hx
    by_cases hs : s' = s
    · subst hs
      simp only [St.set, Function.update_self, and_self, if_true]
    · simp only [St.set, Function.update_self, Function.update_of_ne hs, hs, and_false, if_false]
  · simp only [St.set, Function.update_of_ne hx, hx, false_and, if_false]

lemma St.blocks_set_self {b : Block F} : (st.set x s b).blocks x s = b :=
  St.blocks_set.trans (if_pos ⟨rfl, rfl⟩)

/-- The tickets of a column tile when a block of it changes. -/
lemma St.drawn_set {b : Block F} :
    (fun s' => ((st.set x s b).blocks x s').drawn) =
      Function.update (fun s' => (st.blocks x s').drawn) s b.drawn := by
  funext s'
  rw [St.blocks_set]
  by_cases hs : s' = s
  · subst hs
    rw [if_pos ⟨rfl, rfl⟩, Function.update_self]
  · rw [if_neg fun h => hs h.2, Function.update_of_ne hs]

/-- What the threads of a block know or would release is there. -/
def Block.Sound (L : Launch F B) (partials : ℕ → F) (b : Block F) : Prop :=
  ∀ tid, b.known tid ∪ b.fenced tid ⊆ L.held partials

namespace Block
variable {partials : ℕ → F} {b : Block F}

lemma Sound.fence (h : b.Sound L partials) : (b.fence tid).Sound L partials := by
  intro t a ha
  by_cases e : t = tid
  · subst e
    simp only [Block.fence, Function.update_self, Set.union_self] at ha
    exact h t ha
  · simp only [Block.fence, Function.update_of_ne e] at ha
    exact h t ha

lemma Sound.store (h : b.Sound L partials) {places : Set ℕ} (hp : places ⊆ L.held partials) :
    (b.store tid places).Sound L partials := by
  intro t a ha
  by_cases e : t = tid
  · subst e
    simp only [Block.store, Function.update_self] at ha
    obtain (hk | hm) | hf := ha
    · exact h t (.inl hk)
    · exact hp hm
    · exact h t (.inr hf)
  · simp only [Block.store, Function.update_of_ne e] at ha
    exact h t ha

lemma Sound.draw (h : b.Sound L partials) {n t : ℕ} {seen : Set ℕ} (hseen : seen ⊆ L.held partials) :
    (b.draw n t seen).Sound L partials := by
  intro t a ha
  by_cases e : t = 0
  · subst e
    simp only [Block.draw, Function.update_self] at ha
    obtain hk | hf | hm := ha
    · exact h 0 (.inl hk)
    · exact h 0 (.inr hf)
    · exact hseen hm
  · simp only [Block.draw, Function.update_of_ne e] at ha
    exact h t ha

lemma Sound.sync (h : b.Sound L partials) : (b.sync L).Sound L partials := by
  rintro t a (hk | hf)
  · exact h t (.inl hk)
  · obtain ⟨t', ht'⟩ := Set.mem_iUnion.mp hf
    exact h t' (.inr ht')

end Block

/-! ## Invariant -/

/-- A state of a launch. -/
structure Inv [Zero F] [Add F] (L : Launch F B) (st : St F B) : Prop where
  sound : ∀ x < L.gridX, ∀ s < L.S, (st.blocks x s).Sound L st.partials
  released : ∀ x < L.gridX, st.released x ⊆ L.held st.partials
  covers : ∀ x < L.gridX, ∀ s < L.S, (st.blocks x s).drawn.isSome → L.own x s ⊆ st.released x
  tickets : ∀ x < L.gridX, Tickets L.S (fun s => (st.blocks x s).drawn) (st.counters x)
  idle : ∀ x, L.gridX ≤ x → st.counters x = 0
  ok : ∀ x < L.gridX, ∀ s < L.S, L.Ok x s (st.blocks x s) (st.blocks x s).phase
  written : ∀ x < L.gridX, ∀ s < L.S, ∀ o, (st.blocks x s).count o ≠ 0 →
    st.out (o / 32, x * 32 + o % 32) = L.toBf16 (L.total L.S (o / 32) (x * 32 + o % 32))

section Steps
variable [Zero F] [Add F]

/-- A launch begins with all counters 0. -/
lemma Inv.start {counters : ℕ → ℕ} (h : ∀ x, counters x = 0) (smem : ℕ → ℕ → ℕ → F) (partials : ℕ → F)
    (out : ℕ × ℕ → B) : Inv L (.start counters smem partials out) where
  sound := by
    rintro x _ s _ tid a (ha | ha)
    · cases ha
    · cases ha
  released := fun _ _ _ ha => by cases ha
  covers := fun _ _ _ _ e => by cases e
  tickets := fun x _ => by
    have e : (St.start counters smem partials out).counters x = 0 := h x
    rw [e]
    exact Tickets.zero L.S
  idle := fun x _ => h x
  ok := fun _ _ _ _ => ⟨rfl, rfl, fun _ => rfl, fun _ e => by cases e⟩
  written := fun _ _ _ _ _ e => absurd rfl e

/-- A block changes, and nothing else. -/
lemma Inv.set (h : Inv L st) {b : Block F} (hsound : b.Sound L st.partials)
    (hdrawn : b.drawn = (st.blocks x s).drawn) (hok : L.Ok x s b b.phase)
    (hwritten : ∀ o, b.count o ≠ 0 →
      st.out (o / 32, x * 32 + o % 32) = L.toBf16 (L.total L.S (o / 32) (x * 32 + o % 32))) :
    Inv L (st.set x s b) where
  sound := by
    intro x' hx' s' hs'
    rw [St.blocks_set]
    split
    · exact hsound
    · exact h.sound x' hx' s' hs'
  released := h.released
  covers := by
    intro x' hx' s' hs' hd
    refine h.covers x' hx' s' hs' ?_
    rw [St.blocks_set] at hd
    split at hd
    · rename_i e
      rw [e.1, e.2, ← hdrawn]
      exact hd
    · exact hd
  tickets := by
    intro x' hx'
    have e : (fun s' => ((st.set x s b).blocks x' s').drawn) = fun s' => (st.blocks x' s').drawn := by
      funext s'
      rw [St.blocks_set]
      split
      · rename_i e
        rw [e.1, e.2, hdrawn]
      · rfl
    rw [e]
    exact h.tickets x' hx'
  idle := h.idle
  ok := by
    intro x' hx' s' hs'
    rw [St.blocks_set]
    split
    · rename_i e
      rw [e.1, e.2]
      exact hok
    · exact h.ok x' hx' s' hs'
  written := by
    intro x' hx' s' hs' o ho
    rw [St.blocks_set] at ho
    split at ho
    · rename_i e
      rw [e.1]
      exact hwritten o ho
    · exact h.written x' hx' s' hs' o ho

/-- The phase of a block gives what holds of it. -/
lemma Inv.at (h : Inv L st) (hx : x < L.gridX) (hs : s < L.S) {p : Phase}
    (hp : (st.blocks x s).phase = p) : L.Ok x s (st.blocks x s) p := hp ▸ h.ok x hx s hs

lemma Inv.compute (h : Inv L st) (hx : x < L.gridX) (hs : s < L.S)
    (hp : (st.blocks x s).phase = .compute) : Inv L (L.compute st x s tid) := by
  have hat : L.AtCompute x s (st.blocks x s) := h.at hx hs hp
  have grow : L.held st.partials ⊆ L.held (storeAll st.partials (L.stores x s tid)) :=
    fun a ha => Launch.held_stores (.inl ha)
  have h' : Inv L { st with partials := storeAll st.partials (L.stores x s tid) } :=
    { h with
      sound := fun x hx s hs tid => (h.sound x hx s hs tid).trans grow
      released := fun x hx => (h.released x hx).trans grow }
  refine h'.set ?_ rfl ?_ fun o ho => absurd (hat.count o) ho
  · exact ((h'.sound x hx s hs).store fun a ha => Launch.held_stores (.inr ha)).fence
  · have hphase : ((((st.blocks x s).store tid (L.mine x s tid)).fence tid).arrive tid).phase = .compute := hp
    rw [hphase]
    exact hat.compute

lemma Inv.ticket (h : Inv L st) (hx : x < L.gridX) (hs : s < L.S)
    (hp : (st.blocks x s).phase = .draw) (harr : (st.blocks x s).arrived 0 = false) :
    Inv L (L.ticket st x s) := by
  have hat : L.AtDraw x s (st.blocks x s) := h.at hx hs hp
  have hnone : (st.blocks x s).drawn = none := (hat.before harr).1
  have htick := (h.tickets x hx).draw hs hnone
  have hseen : st.counters x = L.S - 1 → L.all x ⊆ (st.blocks x s).fenced 0 ∪ st.released x := by
    rintro hlast a ⟨s', hs', ha⟩
    by_cases e : s' = s
    · subst e
      exact .inl (hat.stored 0 ha)
    · -- with the last ticket, every other split has drawn before
      have hall := htick.all_of_last hs ((Function.update_self _ _ _).trans (congrArg some hlast)) s' hs'
      rw [Function.update_of_ne e] at hall
      exact .inr (h.covers x hx s' hs' hall ha)
  have hfenced : (st.blocks x s).fenced 0 ⊆ L.held st.partials :=
    fun a ha => h.sound x hx s hs 0 (.inr ha)
  have hgrow : ∀ x', st.released x' ⊆
      Function.update st.released x (st.released x ∪ (st.blocks x s).fenced 0) x' := fun x' a ha => by
    by_cases e : x' = x
    · subst e
      rw [Function.update_self]
      exact .inl ha
    · rwa [Function.update_of_ne e]
  rw [Launch.ticket]
  constructor
  case sound =>
    intro x' hx' s' hs'
    rw [St.blocks_set]
    split
    · exact (h.sound x hx s hs).draw (n := L.S) (t := st.counters x) (h.released x hx)
    · exact h.sound x' hx' s' hs'
  case released =>
    intro x' hx' a ha
    change a ∈ Function.update st.released x _ x' at ha
    by_cases e : x' = x
    · subst e
      rw [Function.update_self] at ha
      obtain ha | ha := ha
      · exact h.released x' hx' ha
      · exact hfenced ha
    · rw [Function.update_of_ne e] at ha
      exact h.released x' hx' ha
  case covers =>
    intro x' hx' s' hs' hd
    rw [St.blocks_set] at hd
    split at hd
    · rename_i e
      obtain ⟨rfl, rfl⟩ := e
      intro a ha
      change a ∈ Function.update st.released x' _ x'
      rw [Function.update_self]
      exact .inr (hat.stored 0 ha)
    · exact (h.covers x' hx' s' hs' hd).trans (hgrow x')
  case tickets =>
    intro x' hx'
    by_cases e : x' = x
    · subst e
      rw [St.drawn_set]
      change Tickets L.S _ (Function.update st.counters x' _ x')
      rw [Function.update_self]
      exact htick
    · have e' : ∀ b, (fun s' => ((st.set x s b).blocks x' s').drawn) = fun s' => (st.blocks x' s').drawn :=
        fun b => funext fun s' => by rw [St.blocks_set, if_neg fun h => e h.1]
      change Tickets L.S (fun s' => ((st.set x s _).blocks x' s').drawn) (Function.update st.counters x _ x')
      rw [e', Function.update_of_ne e]
      exact h.tickets x' hx'
  case idle =>
    intro x' hx'
    change Function.update st.counters x _ x' = 0
    rw [Function.update_of_ne (by omega)]
    exact h.idle x' hx'
  case ok =>
    intro x' hx' s' hs'
    rw [St.blocks_set]
    split
    · rename_i e
      rw [e.1, e.2]
      have hphase : (((st.blocks x s).draw L.S (st.counters x) (st.released x)).arrive 0).phase = .draw := hp
      rw [hphase]
      exact hat.ticket hseen
    · exact h.ok x' hx' s' hs'
  case written =>
    intro x' hx' s' hs' o ho
    rw [St.blocks_set] at ho
    split at ho
    · exact absurd (hat.count o) ho
    · exact h.written x' hx' s' hs' o ho

/-- Every value written to the output is the sum of all splits. -/
lemma Inv.sum (h : Inv L st) (hx : x < L.gridX) (hs : s < L.S) {s0 : ℕ}
    (hp : (st.blocks x s).phase = .sum s0) (harr : (st.blocks x s).arrived tid = false) :
    Inv L (L.sum st x s s0 tid) := by
  have hat : L.AtSum x s0 (st.blocks x s) := h.at hx hs hp
  rw [Launch.sum]
  dsimp only
  by_cases hlast : s0 + L.cn s0 = L.S
  · rw [if_pos hlast]
    have key : ∀ o ∈ L.inOut x tid, L.toBf16 (L.addUp (st.blocks x s).smem s0 o) =
        L.toBf16 (L.total L.S (o / 32) (x * 32 + o % 32)) := fun o ho => by
      rw [hat.addUp harr ho, hlast]
    -- whatever was right in the output stays right
    have hout : ∀ e : ℕ × ℕ, st.out e = L.toBf16 (L.total L.S e.1 e.2) ∨
        (∃ o ∈ L.inOut x tid, (o / 32, x * 32 + o % 32) = e) →
        storeAll st.out ((L.inOut x tid).map fun o =>
          ((o / 32, x * 32 + o % 32), L.toBf16 (L.addUp (st.blocks x s).smem s0 o))) e =
        L.toBf16 (L.total L.S e.1 e.2) := by
      intro e he
      refine storeAll_of_agree _ (fun p hp' hpe => ?_) (he.imp_right fun ⟨o, ho, e'⟩ =>
        ⟨_, List.mem_map.mpr ⟨o, ho, rfl⟩, e'⟩)
      obtain ⟨o, ho, rfl⟩ := List.mem_map.mp hp'
      subst hpe
      exact key o ho
    have h' : Inv L { st with
        out := storeAll st.out ((L.inOut x tid).map fun o =>
          ((o / 32, x * 32 + o % 32), L.toBf16 (L.addUp (st.blocks x s).smem s0 o))) } :=
      { h with written := fun x' hx' s' hs' o ho => hout _ (.inl (h.written x' hx' s' hs' o ho)) }
    refine h'.set (h.sound x hx s hs) rfl ?_ fun o ho => ?_
    · have hphase : (((st.blocks x s).emit (L.inOut x tid)).arrive tid).phase = .sum s0 := hp
      rw [hphase]
      exact hat.last hlast harr
    · refine hout (o / 32, x * 32 + o % 32) ?_
      by_cases ho' : (st.blocks x s).count o = 0
      · right
        refine ⟨o, List.count_pos_iff.mp (Nat.pos_of_ne_zero fun e => ho ?_), rfl⟩
        exact Nat.add_eq_zero_iff.mpr ⟨ho', e⟩
      · exact .inl (h.written x hx s hs o ho')
  · rw [if_neg hlast]
    refine h.set (h.sound x hx s hs) rfl ?_ (h.written x hx s hs)
    have hphase : (((st.blocks x s).write ((L.inOut x tid).map fun o =>
      (L.ch * L.tile + o, L.addUp (st.blocks x s).smem s0 o))).arrive tid).phase = .sum s0 := hp
    rw [hphase]
    exact hat.more hlast harr

/-- Every step keeps the invariant. -/
theorem Inv.step (h : Inv L st) (hst : Step L st st') : Inv L st' := by
  cases hst with
  | compute hx hs hp harr => exact h.compute hx hs hp
  | ticket hx hs hp harr => exact h.ticket hx hs hp harr
  | @wait x s tid hx hs hp h0 harr =>
    have hat : L.AtDraw x s (st.blocks x s) := h.at hx hs hp
    refine h.set (h.sound x hx s hs) rfl ?_ (h.written x hx s hs)
    have hphase : ((st.blocks x s).arrive tid).phase = .draw := hp
    rw [hphase]
    exact hat.wait h0
  | @leave x s tid hx hs hp hflag harr =>
    have hat : L.AtEnter x (st.blocks x s) := h.at hx hs hp
    refine h.set (h.sound x hx s hs) rfl ?_ (h.written x hx s hs)
    have hphase : ((st.blocks x s).arrive tid).phase = .enter := hp
    rw [hphase]
    exact hat.leave hflag
  | @enter x s tid rd hx hs hp hflag harr hrd =>
    have hat : L.AtEnter x (st.blocks x s) := h.at hx hs hp
    have hsound : ((st.blocks x s).fence tid).Sound L st.partials := (h.sound x hx s hs).fence
    refine h.set hsound rfl ?_ (h.written x hx s hs)
    have hphase : ((L.stage x (L.zero ((st.blocks x s).fence tid) tid) rd 0 tid).arrive tid).phase =
      .enter := hp
    rw [hphase]
    exact hat.enter hflag (fun a ha => hsound tid (.inl ha)) hrd
  | sum hx hs hp harr => exact h.sum hx hs hp harr
  | @stage x s s0 tid rd hx hs hp harr hrd =>
    have hat : L.AtStage x s0 (st.blocks x s) := h.at hx hs hp
    refine h.set (h.sound x hx s hs) rfl ?_ (h.written x hx s hs)
    have hphase : ((L.stage x (st.blocks x s) rd s0 tid).arrive tid).phase = .stage s0 := hp
    rw [hphase]
    exact hat.stage (fun a ha => h.sound x hx s hs tid (.inl ha)) hrd
  | @sync x s hx hs hp hall =>
    exact h.set (h.sound x hx s hs).sync rfl ((h.ok x hx s hs).sync hp hall) (h.written x hx s hs)

/-- A ticket is drawn before the sums of a tile begin. -/
lemma Inv.ticketed (h : Inv L st) (hx : x < L.gridX) (hs : s < L.S) (hflag : (st.blocks x s).flag = true) :
    (st.blocks x s).drawn = some (L.S - 1) := by
  have key : L.Ticketed (st.blocks x s) → (st.blocks x s).drawn = some (L.S - 1) := fun ⟨t, ht, hf⟩ => by
    rw [ht, of_decide_eq_true (hf.symm.trans hflag)]
  have hok := h.ok x hx s hs
  cases hp : (st.blocks x s).phase with
  | compute =>
    rw [hp] at hok
    cases hok.flag.symm.trans hflag
  | draw =>
    rw [hp] at hok
    cases harr : (st.blocks x s).arrived 0 with
    | false => cases (hok.before harr).2.symm.trans hflag
    | true => exact key (hok.after harr).1
  | enter =>
    rw [hp] at hok
    exact key hok.ticketed
  | sum s0 =>
    rw [hp] at hok
    exact key hok.ticketed
  | stage s0 =>
    rw [hp] at hok
    exact key hok.ticketed
  | done =>
    rw [hp] at hok
    exact key hok.ticketed

/-- When a launch has ended, all tickets of a tile have been drawn and its counter is 0. -/
lemma Inv.ended (h : Inv L st) (hend : Ended L st) (hx : x < L.gridX) :
    st.counters x = 0 ∧ ∃ s < L.S, (st.blocks x s).drawn = some (L.S - 1) := by
  refine (h.tickets x hx).all (Nat.lt_of_lt_of_le Nat.zero_lt_two L.two_le) fun s hs => ?_
  obtain ⟨⟨t, ht, _⟩, _⟩ : L.AtDone x (st.blocks x s) := h.at hx hs (hend x hx s hs)
  rw [ht]
  rfl

theorem Inv.counters (h : Inv L st) (hend : Ended L st) (x : ℕ) : st.counters x = 0 := by
  by_cases hx : x < L.gridX
  · exact (h.ended hend hx).1
  · exact h.idle x (Nat.not_lt.mp hx)

/-- The invariant holds in every state of every launch. -/
theorem Reach.inv (h : Reach L st) : Inv L st := by
  induction h with
  | first => exact .start (fun _ => rfl) _ _ _
  | step _ hst ih => exact ih.step hst
  | next _ hend ih => exact .start (ih.counters hend) _ _ _

/-! ## Termination -/

/-- How many barriers a block has before it at most. -/
def Launch.ahead (L : Launch F B) : Phase → ℕ
  | .compute => 2 * L.S + 4
  | .draw => 2 * L.S + 3
  | .enter => 2 * L.S + 2
  | .stage s0 => 2 * (L.S - s0) + 1
  | .sum s0 => 2 * (L.S - s0)
  | .done => 0

/-- How many steps it has before it at most. -/
def Block.ahead (L : Launch F B) (b : Block F) : ℕ :=
  L.ahead b.phase * 129 + (Finset.univ.filter fun tid => b.arrived tid = false).card

def St.ahead (L : Launch F B) (st : St F B) : ℕ :=
  ∑ p ∈ Finset.range L.gridX ×ˢ Finset.range L.S, (st.blocks p.1 p.2).ahead L

omit [Zero F] [Add F] in
lemma Block.ahead_arrive {b b' : Block F} (hp : b'.phase = b.phase) (ha : b'.arrived = b.arrived)
    (harr : b.arrived tid = false) : (b'.arrive tid).ahead L < b.ahead L := by
  have hphase : (b'.arrive tid).phase = b.phase := hp
  have hlt : (Finset.univ.filter fun t => (b'.arrive tid).arrived t = false).card <
      (Finset.univ.filter fun t => b.arrived t = false).card := by
    refine Finset.card_lt_card (Finset.ssubset_iff_of_subset ?_ |>.mpr ⟨tid, ?_, ?_⟩)
    · intro t ht
      rw [Finset.mem_filter] at ht ⊢
      exact ⟨ht.1, ha ▸ (Block.of_not_arrived ht.2).2⟩
    · exact Finset.mem_filter.mpr ⟨Finset.mem_univ _, harr⟩
    · exact fun ht => (Block.of_not_arrived (Finset.mem_filter.mp ht).2).1 rfl
  rw [Block.ahead, Block.ahead, hphase]
  omega

lemma Block.ahead_sync {b : Block F} (hok : L.Ok x s b b.phase) (hp : b.phase ≠ .done) :
    (b.sync L).ahead L < b.ahead L := by
  have hlt : L.ahead (L.next b b.phase) < L.ahead b.phase := by
    cases e : b.phase with
    | compute => exact Nat.lt_succ_self _
    | draw => exact Nat.lt_succ_self _
    | enter =>
      rw [Launch.next]
      split
      · simp only [Launch.ahead]
        omega
      · exact Nat.succ_pos _
    | sum s0 =>
      rw [e] at hok
      have hs := hok.lt
      have hcn := Launch.cn_le hs
      rw [Launch.next]
      split
      · simp only [Launch.ahead]
        omega
      · simp only [Launch.ahead]
        omega
    | stage s0 => exact Nat.lt_succ_self _
    | done => exact absurd e hp
  have hcard : (Finset.univ.filter fun tid => (b.sync L).arrived tid = false).card ≤ 128 :=
    (Finset.card_le_univ _).trans (Fintype.card_fin 128).le
  have hphase : (b.sync L).phase = L.next b b.phase := rfl
  rw [Block.ahead, Block.ahead, hphase]
  omega

omit [Zero F] [Add F] in
lemma St.ahead_set (hx : x < L.gridX) (hs : s < L.S) {b : Block F}
    (hlt : b.ahead L < (st.blocks x s).ahead L) : (st.set x s b).ahead L < st.ahead L := by
  refine Finset.sum_lt_sum (fun p _ => ?_) ⟨(x, s), ?_, ?_⟩
  · rw [St.blocks_set]
    split
    · rename_i e
      rw [e.1, e.2]
      exact hlt.le
    · exact Nat.le_refl _
  · rw [Finset.mem_product, Finset.mem_range, Finset.mem_range]
    exact ⟨hx, hs⟩
  · rw [St.blocks_set_self]
    exact hlt

lemma Inv.ahead (h : Inv L st) (hst : Step L st st') : st'.ahead L < st.ahead L := by
  cases hst with
  | compute hx hs hp harr => exact St.ahead_set hx hs (Block.ahead_arrive rfl rfl harr)
  | ticket hx hs hp harr => exact St.ahead_set hx hs (Block.ahead_arrive rfl rfl harr)
  | wait hx hs hp h0 harr => exact St.ahead_set hx hs (Block.ahead_arrive rfl rfl harr)
  | leave hx hs hp hflag harr => exact St.ahead_set hx hs (Block.ahead_arrive rfl rfl harr)
  | enter hx hs hp hflag harr hrd => exact St.ahead_set hx hs (Block.ahead_arrive rfl rfl harr)
  | stage hx hs hp harr hrd => exact St.ahead_set hx hs (Block.ahead_arrive rfl rfl harr)
  | sync hx hs hp hall => exact St.ahead_set hx hs (Block.ahead_sync (h.ok _ hx _ hs) hp)
  | sum hx hs hp harr =>
    rw [Launch.sum]
    dsimp only
    split
    · exact St.ahead_set hx hs (Block.ahead_arrive rfl rfl harr)
    · exact St.ahead_set hx hs (Block.ahead_arrive rfl rfl harr)

/-- No block waits for another: a launch that has not ended goes on. -/
lemma exists_step (h : ¬Ended L st) : ∃ st', Step L st st' := by
  simp only [Ended, not_forall] at h
  obtain ⟨x, hx, s, hs, hdone⟩ := h
  by_cases hall : ∀ tid, (st.blocks x s).arrived tid = true
  · exact ⟨_, .sync hx hs hdone hall⟩
  · rw [not_forall] at hall
    obtain ⟨tid, harr⟩ := hall
    rw [Bool.not_eq_true] at harr
    cases hp : (st.blocks x s).phase with
    | compute => exact ⟨_, .compute hx hs hp harr⟩
    | draw =>
      by_cases h0 : tid = 0
      · exact ⟨_, .ticket hx hs hp (h0 ▸ harr)⟩
      · exact ⟨_, .wait hx hs hp h0 harr⟩
    | enter =>
      cases hflag : (st.blocks x s).flag with
      | false => exact ⟨_, .leave hx hs hp hflag harr⟩
      | true => exact ⟨_, .enter hx hs hp hflag harr fun _ _ => rfl⟩
    | sum s0 => exact ⟨_, .sum hx hs hp harr⟩
    | stage s0 => exact ⟨_, .stage hx hs hp harr fun _ _ => rfl⟩
    | done => exact absurd hp hdone

/-- And it ends. -/
lemma Inv.acc (h : Inv L st) : Acc (fun st' st => Step L st st') st := by
  generalize hn : st.ahead L = n
  induction n using Nat.strong_induction_on generalizing st with
  | _ n ih =>
    subst hn
    exact ⟨st, fun st' hst => ih _ (h.ahead hst) (h.step hst) rfl⟩

lemma Reach.exists_ended (h : Reach L st) : ∃ st', Reach L st' ∧ Ended L st' := by
  induction h.inv.acc with
  | intro st _ ih =>
    by_cases hend : Ended L st
    · exact ⟨st, h, hend⟩
    · obtain ⟨st', hst⟩ := exists_step hend
      exact ih st' hst (h.step hst)

/-! ## Results -/

/-- The thread reads partial sums: with the first chunk behind the flag, or with a later one. -/
inductive Reads (L : Launch F B) (st : St F B) (x s : ℕ) (tid : Fin 128) (rd : ℕ → F) : Prop
  | enter :
    (st.blocks x s).phase = .enter →
    (st.blocks x s).flag = true →
    Sees (((st.blocks x s).fence tid).known tid) st.partials rd →
    Reads L st x s tid rd
  | stage {s0 : ℕ} :
    (st.blocks x s).phase = .stage s0 →
    Sees ((st.blocks x s).known tid) st.partials rd →
    Reads L st x s tid rd

/-- Whoever reads has the partial sums of all splits. -/
lemma Inv.reads (h : Inv L st) (hx : x < L.gridX) (hs : s < L.S) {rd : ℕ → F}
    (hrd : Reads L st x s tid rd) : ∃ known, L.all x ⊆ known ∧ known ⊆ L.held st.partials ∧
      Sees known st.partials rd := by
  cases hrd with
  | enter hp hflag hrd =>
    have hat : L.AtEnter x (st.blocks x s) := h.at hx hs hp
    refine ⟨_, fun a ha => ?_, fun a ha => (h.sound x hx s hs).fence tid (.inl ha), hrd⟩
    simp only [Block.fence, Function.update_self]
    exact .inr (hat.fenced hflag tid ha)
  | @stage s0 hp hrd =>
    have hat : L.AtStage x s0 (st.blocks x s) := h.at hx hs hp
    exact ⟨_, hat.knows tid, fun a ha => h.sound x hx s hs tid (.inl ha), hrd⟩

/-- A block that has ended has written every element of the tile once, if it had the last ticket. -/
lemma Inv.count (h : Inv L st) (hend : Ended L st) (hx : x < L.gridX) (hs : s < L.S) (o : ℕ) :
    (st.blocks x s).count o =
      if (st.blocks x s).drawn = some (L.S - 1) ∧ o / 32 < L.M ∧ x * 32 + o % 32 < L.N then 1 else 0 := by
  obtain ⟨⟨t, ht, hf⟩, hcount⟩ : L.AtDone x (st.blocks x s) := h.at hx hs (hend x hx s hs)
  rw [hcount]
  refine if_congr (and_congr ?_ (and_congr_left' ?_)) rfl rfl
  · rw [ht, hf, decide_eq_true_eq, Option.some_inj]
  · rw [Launch.tile, Nat.div_lt_iff_lt_mul (by decide)]

lemma Inv.out (h : Inv L st) (hend : Ended L st) {row col : ℕ} (hr : row < L.M) (hc : col < L.N)
    (hx : col / 32 < L.gridX) : st.out (row, col) = L.toBf16 (L.total L.S row col) := by
  obtain ⟨s, hs, hlast⟩ := (h.ended hend hx).2
  have hrow : (row * 32 + col % 32) / 32 = row := by omega
  have hmod : (row * 32 + col % 32) % 32 = col % 32 := by omega
  have hcol : col / 32 * 32 + col % 32 = col := by omega
  have hcount := h.count hend hx hs (row * 32 + col % 32)
  rw [hrow, hmod, hcol, if_pos ⟨hlast, hr, hc⟩] at hcount
  have hout := h.written _ hx s hs (row * 32 + col % 32) (by omega)
  rwa [hrow, hmod, hcol] at hout

/-- The partial sums of a launch that has ended are all there. -/
lemma Inv.reduce (h : Inv L st) (hend : Ended L st) {row col : ℕ} (hr : row < L.M) (hc : col < L.N)
    (hx : col / 32 < L.gridX) : L.reduce st.partials row col = L.toBf16 (L.total L.S row col) := by
  refine congrArg L.toBf16 (List.foldl_ext _ _ _ fun acc s hs => ?_)
  have hs := List.mem_range.mp hs
  obtain ⟨⟨t, ht, _⟩, _⟩ : L.AtDone (col / 32) (st.blocks (col / 32) s) := h.at hx hs (hend _ hx s hs)
  have hmem := h.covers _ hx s hs (by rw [ht]; rfl) ⟨row, hr, col, hc, rfl, rfl⟩
  rw [Launch.eq_of_mem_held hr hc (h.released _ hx hmem)]

lemma Inv.unique (h : Inv L st) {s' : ℕ} (hx : x < L.gridX) (hs : s < L.S) (hs' : s' < L.S)
    (hl : (st.blocks x s).drawn = some (L.S - 1)) (hl' : (st.blocks x s').drawn = some (L.S - 1)) : s = s' :=
  (h.tickets x hx).inj s hs s' hs' _ hl hl'

/-- Each launch ends. At most one block of a column tile has the last ticket, and only it reads partial sums,
which then are complete in all splits. When the launch has ended, exactly one block of each tile has had the
last ticket; it has written each element of the tile once and the others none; the output is what
`nvfp4_splitk_reduce` gives, the sum of the splits in order; and all counters are 0. -/
theorem reduced_once (h : Reach L st) :
    (Acc (fun st' st => Step L st st') st ∧ (¬Ended L st → ∃ st', Step L st st')) ∧
    (∀ x < L.gridX, ∀ s < L.S, ∀ s' < L.S, (st.blocks x s).drawn = some (L.S - 1) →
      (st.blocks x s').drawn = some (L.S - 1) → s = s') ∧
    (∀ x < L.gridX, ∀ s < L.S, ∀ tid rd, Reads L st x s tid rd →
      (st.blocks x s).drawn = some (L.S - 1) ∧
      ∀ s' < L.S, ∀ row < L.M, ∀ col < L.N, col / 32 = x →
        st.partials (L.addr s' row col) = L.c s' row col ∧ rd (L.addr s' row col) = L.c s' row col) ∧
    (Ended L st →
      (∀ x < L.gridX, ∃! s, s < L.S ∧ (st.blocks x s).drawn = some (L.S - 1)) ∧
      (∀ x < L.gridX, ∀ s < L.S, ∀ o, (st.blocks x s).count o =
        if (st.blocks x s).drawn = some (L.S - 1) ∧ o / 32 < L.M ∧ x * 32 + o % 32 < L.N then 1 else 0) ∧
      (∀ row < L.M, ∀ col < L.N, col / 32 < L.gridX →
        st.out (row, col) = L.toBf16 (L.total L.S row col) ∧
        st.out (row, col) = L.reduce st.partials row col) ∧
      ∀ x, st.counters x = 0) := by
  have hinv := h.inv
  refine ⟨⟨hinv.acc, exists_step⟩, fun x hx s hs s' hs' => hinv.unique hx hs hs', ?_, fun hend => ?_⟩
  · intro x hx s hs tid rd hrd
    refine ⟨?_, fun s' hs' row hr col hc e => ?_⟩
    · cases hrd with
      | enter _ hflag _ => exact hinv.ticketed hx hs hflag
      | stage hp _ => exact hinv.ticketed hx hs (Launch.AtStage.toSumming (hinv.at hx hs hp)).flag
    · obtain ⟨known, hall, hheld, hsees⟩ := hinv.reads hx hs hrd
      have hmem := e ▸ Launch.mem_all hs' hr hc
      have hval := Launch.eq_of_mem_held hr hc (hheld (hall hmem))
      exact ⟨hval, (hsees _ (hall hmem)).trans hval⟩
  · refine ⟨fun x hx => ?_, fun x hx s hs => hinv.count hend hx hs, fun row hr col hc hx => ?_,
      hinv.counters hend⟩
    · obtain ⟨s, hs, hl⟩ := (hinv.ended hend hx).2
      exact ⟨s, ⟨hs, hl⟩, fun s' hs' => hinv.unique hx hs'.1 hs hs'.2 hl⟩
    · have hout := hinv.out hend hr hc hx
      exact ⟨hout, hout.trans (hinv.reduce hend hr hc hx).symm⟩

/-- A launch of two splits and one tile of 2 × 16 integers: some run of it ends. -/
def small : Launch ℤ ℤ where
  gridX := 1
  S := 2
  M := 2
  N := 16
  MT := 1
  ch := 1
  c := fun s row col => 10 * s + row + col
  toBf16 := fun v => 2 * v
  two_le := by decide
  rows := by decide
  cols := by decide
  ch_pos := by decide
  ch_le := by decide

theorem small_reduced : ∃ st : St ℤ ℤ, Reach small st ∧ Ended small st ∧ st.out (1, 3) = 36 ∧
    ∀ x, st.counters x = 0 := by
  have hstart : Reach small (.start (fun _ => 0) (fun _ _ _ => 0) (fun _ => 0) fun _ => 0) := .first
  obtain ⟨st, h, hend⟩ := hstart.exists_ended
  obtain ⟨_, _, _, hfin⟩ := reduced_once h
  obtain ⟨_, _, hout, hzero⟩ := hfin hend
  exact ⟨st, h, hend, (hout 1 (by decide) 3 (by decide) (by decide)).1.trans (by decide), hzero⟩

end Steps

end SuffixHybrid.NvGemm
