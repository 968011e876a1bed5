import SuffixHybrid.HostAr.Machine

/-!
# A rank at its barriers

`RankInv` says where the blocks of a rank are. The rank is at barrier number `c`. Either its blocks gather: some have
arrived, the others work up to the barrier or have yet to leave the last one. Or the last block to arrive leads and the
others wait for it. `p` is the barrier up to which the rank has published, which is the next one as soon as the leader
polls. One lemma for each step says what becomes of the two numbers.
-/

namespace SuffixHybrid.HostAr

/-- The leader has reset the counters. -/
def Stage.HasCounted : Stage → Prop
  | .elected => False
  | .cleared => False
  | .counted => True
  | .polling _ => True

/-- The leader has published. -/
def Stage.HasPublished : Stage → Prop
  | .polling _ => True
  | _ => False

instance : DecidablePred Stage.HasCounted
  | .elected => .isFalse id
  | .cleared => .isFalse id
  | .counted => .isTrue trivial
  | .polling _ => .isTrue trivial

instance : DecidablePred Stage.HasPublished
  | .elected => .isFalse id
  | .cleared => .isFalse id
  | .counted => .isFalse id
  | .polling _ => .isTrue trivial

/-- What an arrival counter has, once `n` blocks have arrived. -/
def Stage.arrived (n : ℕ) : Stage → ℕ
  | .elected => n
  | _ => 0

namespace Script
variable (S : Script) (r : ℕ) (R : Rank)

/-- A block is in a round of the launch, with work left of that round. -/
def Valid (l r b : ℕ) : PC → Prop
  | .work rnd part todo => rnd < (S.call l).rounds ∧ part ≤ (S.call l).width ∧ ∀ op ∈ todo, op ∈ S.ops l r rnd part b
  | .wait rnd ph => rnd < (S.call l).rounds ∧ ph < (S.call l).width
  | .lead rnd ph _ => rnd < (S.call l).rounds ∧ ph < (S.call l).width
  | _ => True

/-- A block has arrived at a barrier and does not lead. -/
def Waits (l c : ℕ) : PC → Prop
  | .wait rnd ph => 2 * S.epoch l rnd + ph = c
  | _ => False

instance (l c : ℕ) : DecidablePred (S.Waits l c)
  | .wait _ _ => inferInstanceAs (Decidable (_ = _))
  | .start => .isFalse id
  | .work _ _ _ => .isFalse id
  | .lead _ _ _ => .isFalse id
  | .done => .isFalse id

/-- A block is on its way to a barrier, or waits there. -/
def Toward (l c : ℕ) : PC → Prop
  | .start => S.edge l = c
  | .work rnd part _ => S.key l rnd part = c
  | .wait rnd ph => 2 * S.epoch l rnd + ph = c ∨ S.key l rnd (ph + 1) = c
  | .lead _ _ _ => False
  | .done => S.edge (l + 1) = c

/-- The number of blocks that wait. -/
def waiting (c : ℕ) : ℕ :=
  ((Finset.range ((S.call R.launch).grid r)).filter fun b => S.Waits R.launch c (R.block b).pc).card

/-- The blocks gather at a barrier. -/
structure Gather (c : ℕ) : Prop where
  toward : ∀ b < (S.call R.launch).grid r, S.Toward R.launch c (R.block b).pc
  some : S.waiting r R c < (S.call R.launch).grid r
  arr : ∀ ph, R.arr ph = if ph = c % 2 then S.waiting r R c else 0
  ctr : R.ctr = S.before (if c = S.edge (R.launch + 1) then R.launch + 1 else R.launch) % 2 ^ 32

/-- A block leads at a barrier. -/
structure Lead (b rnd ph : ℕ) (stage : Stage) : Prop where
  lt : b < (S.call R.launch).grid r
  pc : (R.block b).pc = .lead rnd ph stage
  others : ∀ b' < (S.call R.launch).grid r, b' ≠ b → (R.block b').pc = .wait rnd ph
  arr : ∀ ph', R.arr ph' = if ph' = ph then stage.arrived ((S.call R.launch).grid r) else 0
  ctr : R.ctr = S.before (if (S.call R.launch).Final rnd ph ∧ stage.HasCounted then R.launch + 1 else R.launch) % 2 ^ 32

/-- The barrier that a rank is at, and the one up to which it has published. -/
inductive Mode : ℕ → ℕ → Prop where
  | gather {c} (h : S.Gather r R c) : Mode c c
  | lead {b rnd ph stage} (h : S.Lead r R b rnd ph stage) :
    Mode (2 * S.epoch R.launch rnd + ph)
      (if stage.HasPublished then S.key R.launch rnd (ph + 1) else 2 * S.epoch R.launch rnd + ph)

/-- What holds of a rank in every run. -/
structure RankInv (c p : ℕ) : Prop where
  mode : S.Mode r R c p
  valid : ∀ b < (S.call R.launch).grid r, S.Valid R.launch r b (R.block b).pc
  ctr0 : ∀ b < (S.call R.launch).grid r, (R.block b).pc ≠ .start → (R.block b).ctr0 = S.before R.launch % 2 ^ 32
  go : ∀ ph, ∃ f, R.go ph = f % 2 ^ 32 ∧ S.Line (fun _ => True) ph c f

variable {S r R} {c p b rnd ph l : ℕ}

/-! ## Gathering -/

lemma not_waits_work {part : ℕ} {todo : List Op} : ¬ S.Waits l c (.work rnd part todo) := id

lemma eq_wait_of_waits : ∀ {pc : PC}, S.Waits l c pc → ∃ rnd ph, pc = .wait rnd ph ∧ 2 * S.epoch l rnd + ph = c
  | .wait rnd ph, h => ⟨rnd, ph, rfl, h⟩

/-- The barriers at one number are one barrier. -/
lemma eq_of_waits {rnd' ph' : ℕ} (h : rnd < (S.call l).rounds) (hph : ph < (S.call l).width)
    (h' : rnd' < (S.call l).rounds) (hph' : ph' < (S.call l).width)
    (heq : 2 * S.epoch l rnd' + ph' = 2 * S.epoch l rnd + ph) : rnd' = rnd ∧ ph' = ph := by
  have hle := (S.call l).width_le
  exact ⟨(epoch_inj h' h (by omega)).2, by omega⟩

/-- The blocks that wait, when a block that does not wait goes on without arriving. -/
lemma waiting_update {B : Block} (hold : ¬ S.Waits R.launch c (R.block b).pc) (hnew : ¬ S.Waits R.launch c B.pc) :
    S.waiting r { R with block := Function.update R.block b B } c = S.waiting r R c := by
  refine congrArg Finset.card (Finset.filter_congr fun b' _ => ?_)
  by_cases hb' : b' = b
  · subst hb'
    simp only [Function.update_self]
    exact iff_of_false hnew hold
  · simp only [Function.update_of_ne hb']

/-- One more block waits. -/
lemma waiting_arrive {B : Block} (hb : b < (S.call R.launch).grid r) (hold : ¬ S.Waits R.launch c (R.block b).pc)
    (hnew : S.Waits R.launch c B.pc) :
    S.waiting r { R with block := Function.update R.block b B } c = S.waiting r R c + 1 := by
  rw [waiting, waiting, ← Finset.card_insert_of_notMem (a := b) (by rw [Finset.mem_filter]; exact fun h => hold h.2)]
  refine congrArg Finset.card (Finset.ext fun b' => ?_)
  rw [Finset.mem_filter, Finset.mem_insert, Finset.mem_filter]
  by_cases hb' : b' = b
  · subst hb'
    simp only [Function.update_self]
    exact iff_of_true ⟨Finset.mem_range.mpr hb, hnew⟩ (.inl trivial)
  · simp only [Function.update_of_ne hb']
    rw [or_iff_right hb']

/-- If all but one wait, these are all the others. -/
lemma waits_of_waiting (hb : b < (S.call R.launch).grid r) (hold : ¬ S.Waits R.launch c (R.block b).pc)
    (heq : S.waiting r R c = (S.call R.launch).grid r - 1) {b' : ℕ} (hb' : b' < (S.call R.launch).grid r)
    (hne : b' ≠ b) : S.Waits R.launch c (R.block b').pc := by
  have hsub : ((Finset.range ((S.call R.launch).grid r)).filter fun b => S.Waits R.launch c (R.block b).pc) ⊆
      (Finset.range ((S.call R.launch).grid r)).erase b := by
    intro b'' hb''
    rw [Finset.mem_filter] at hb''
    refine Finset.mem_erase.mpr ⟨?_, hb''.1⟩
    rintro rfl
    exact hold hb''.2
  have hcard := Finset.eq_of_subset_of_card_le hsub (by
    rw [Finset.card_erase_of_mem (Finset.mem_range.mpr hb), Finset.card_range]
    exact Nat.le_of_eq heq.symm)
  have hmem : b' ∈ (Finset.range ((S.call R.launch).grid r)).erase b :=
    Finset.mem_erase.mpr ⟨hne, Finset.mem_range.mpr hb'⟩
  rw [← hcard, Finset.mem_filter] at hmem
  exact hmem.2

namespace Gather

/-- A block goes on without arriving. -/
lemma update (h : S.Gather r R c) {B : Block} (hold : ¬ S.Waits R.launch c (R.block b).pc)
    (htoward : S.Toward R.launch c B.pc) (hnew : ¬ S.Waits R.launch c B.pc) :
    S.Gather r { R with block := Function.update R.block b B } c where
  toward b' hb' := by
    by_cases heq : b' = b
    · subst heq
      simp only [Function.update_self]
      exact htoward
    · simp only [Function.update_of_ne heq]
      exact h.toward b' hb'
  some := by
    rw [waiting_update hold hnew]
    exact h.some
  arr ph := by
    rw [waiting_update hold hnew]
    exact h.arr ph
  ctr := h.ctr

/-- A block arrives, and is not the last one. -/
lemma arrive (h : S.Gather r R (2 * S.epoch R.launch rnd + ph)) (hph : ph < (S.call R.launch).width)
    (hb : b < (S.call R.launch).grid r) {part : ℕ} {todo : List Op} (hpc : (R.block b).pc = .work rnd part todo)
    (hlast : R.arr ph ≠ (S.call R.launch).grid r - 1) :
    S.Gather r { R.move b (.wait rnd ph) with arr := Function.update R.arr ph (R.arr ph + 1) }
      (2 * S.epoch R.launch rnd + ph) := by
  have hwidth := (S.call R.launch).width_le
  have hmod : (2 * S.epoch R.launch rnd + ph) % 2 = ph := by omega
  have hold : ¬ S.Waits R.launch (2 * S.epoch R.launch rnd + ph) (R.block b).pc := by
    rw [hpc]
    exact not_waits_work
  have hcount : S.waiting r (R.move b (.wait rnd ph)) (2 * S.epoch R.launch rnd + ph) = _ :=
    waiting_arrive hb hold (show S.Waits R.launch _ (.wait rnd ph) from rfl)
  have harr := h.arr ph
  rw [hmod, if_pos rfl] at harr
  have hsome := h.some
  refine ⟨fun b' hb' => ?_, ?_, fun ph' => ?_, h.ctr⟩
  · by_cases heq : b' = b
    · subst heq
      simp only [Rank.move, Function.update_self]
      exact .inl rfl
    · simp only [Rank.move, Function.update_of_ne heq]
      exact h.toward b' hb'
  · change S.waiting r (R.move b (.wait rnd ph)) _ < (S.call R.launch).grid r
    rw [hcount]
    omega
  · change Function.update R.arr ph (R.arr ph + 1) ph' = if _ then S.waiting r (R.move b (.wait rnd ph)) _ else 0
    rw [hcount, hmod]
    by_cases heq : ph' = ph
    · subst heq
      rw [Function.update_self, if_pos rfl, harr]
    · rw [Function.update_of_ne heq, if_neg heq, h.arr ph', hmod, if_neg heq]

/-- The last block arrives. -/
lemma last (h : S.Gather r R (2 * S.epoch R.launch rnd + ph))
    (hvalid : ∀ b < (S.call R.launch).grid r, S.Valid R.launch r b (R.block b).pc)
    (hrnd : rnd < (S.call R.launch).rounds) (hph : ph < (S.call R.launch).width)
    (hb : b < (S.call R.launch).grid r) {part : ℕ} {todo : List Op} (hpc : (R.block b).pc = .work rnd part todo)
    (hlast : R.arr ph = (S.call R.launch).grid r - 1) :
    S.Lead r { R.move b (.lead rnd ph .elected) with arr := Function.update R.arr ph (R.arr ph + 1) } b rnd ph
      .elected := by
  have hwidth := (S.call R.launch).width_le
  have hmod : (2 * S.epoch R.launch rnd + ph) % 2 = ph := by omega
  have hold : ¬ S.Waits R.launch (2 * S.epoch R.launch rnd + ph) (R.block b).pc := by
    rw [hpc]
    exact not_waits_work
  have harr := h.arr ph
  rw [hmod, if_pos rfl] at harr
  refine ⟨hb, ?_, fun b' hb' hne => ?_, fun ph' => ?_, ?_⟩
  · simp only [Rank.move, Function.update_self]
  · simp only [Rank.move, Function.update_of_ne hne]
    obtain ⟨rnd', ph', hwait, heq⟩ := eq_wait_of_waits (waits_of_waiting hb hold (harr.symm.trans hlast) hb' hne)
    have hval := hvalid b' hb'
    rw [hwait] at hval ⊢
    obtain ⟨rfl, rfl⟩ := eq_of_waits hrnd hph hval.1 hval.2 heq
    rfl
  · change Function.update R.arr ph (R.arr ph + 1) ph' = if ph' = ph then (S.call R.launch).grid r else 0
    by_cases heq : ph' = ph
    · subst heq
      rw [Function.update_self, if_pos rfl, hlast]
      omega
    · rw [Function.update_of_ne heq, if_neg heq, h.arr ph', hmod, if_neg heq]
  · have hne : 2 * S.epoch R.launch rnd + ph ≠ S.edge (R.launch + 1) := Nat.ne_of_lt (lt_edge hrnd hph)
    have hctr := h.ctr
    rw [if_neg hne] at hctr
    rw [if_neg fun hcount => hcount.2]
    exact hctr

/-- The next launch, when all blocks are done. -/
lemma launch (h : S.Gather r R c) (hgrid : ∀ l, 0 < (S.call l).grid r)
    (hdone : ∀ b < (S.call R.launch).grid r, (R.block b).pc = .done) :
    S.Gather r { R with launch := R.launch + 1, block := fun _ => ⟨0, .start⟩ } c := by
  have hc : S.edge (R.launch + 1) = c := by
    have := h.toward 0 (hgrid _)
    rw [hdone 0 (hgrid _)] at this
    exact this
  have hempty (R' : Rank) (hR' : ∀ b < (S.call R'.launch).grid r, ¬ S.Waits R'.launch c (R'.block b).pc) :
      S.waiting r R' c = 0 := by
    rw [waiting, Finset.card_eq_zero, Finset.filter_eq_empty_iff]
    exact fun b hb => hR' b (Finset.mem_range.mp hb)
  have hnew := hempty { R with launch := R.launch + 1, block := fun _ => ⟨0, .start⟩ } fun _ _ => id
  refine ⟨fun _ _ => hc, ?_, fun ph => ?_, ?_⟩
  · rw [hnew]
    exact hgrid _
  · have harr := h.arr ph
    rw [hempty R fun b hb => by rw [hdone b hb]; exact id] at harr
    rw [hnew]
    exact harr
  · have hctr := h.ctr
    rw [if_pos hc.symm] at hctr
    change R.ctr = S.before (if c = S.edge (R.launch + 1 + 1) then R.launch + 1 + 1 else R.launch + 1) % 2 ^ 32
    split
    · rename_i hedge
      have hbefore : S.before (R.launch + 1) = S.before (R.launch + 1 + 1) := by
        rw [← hc, edge, edge] at hedge
        omega
      rw [hctr, hbefore]
    · exact hctr

end Gather

/-! ## Leading -/

namespace Lead
variable {stage : Stage}

/-- The leader goes to its next stage. -/
lemma update (h : S.Lead r R b rnd ph stage) {stage' : Stage} {R' : Rank} (hlaunch : R'.launch = R.launch)
    (hblock : R'.block = (R.move b (.lead rnd ph stage')).block)
    (harr : ∀ ph', R'.arr ph' = if ph' = ph then stage'.arrived ((S.call R.launch).grid r) else 0)
    (hctr : R'.ctr = S.before (if (S.call R.launch).Final rnd ph ∧ stage'.HasCounted then R.launch + 1 else R.launch) %
      2 ^ 32) : S.Lead r R' b rnd ph stage' := by
  refine ⟨?_, ?_, fun b' hb' hne => ?_, ?_, ?_⟩
  · rw [hlaunch]
    exact h.lt
  · rw [hblock]
    simp only [Rank.move, Function.update_self]
  · rw [hlaunch] at hb'
    rw [hblock]
    simp only [Rank.move, Function.update_of_ne hne]
    exact h.others b' hb' hne
  · rw [hlaunch]
    exact harr
  · rw [hlaunch]
    exact hctr

/-- A stage without an effect on the device. -/
lemma same (h : S.Lead r R b rnd ph stage) {stage' : Stage} (harr : ∀ n, stage'.arrived n = stage.arrived n)
    (hcount : stage'.HasCounted ↔ stage.HasCounted) : S.Lead r (R.move b (.lead rnd ph stage')) b rnd ph stage' := by
  refine h.update rfl rfl (fun ph' => ?_) ?_
  · rw [harr]
    exact h.arr ph'
  · simp only [hcount]
    exact h.ctr

/-- The leader releases the others. -/
lemma release (h : S.Lead r R b rnd ph stage) (hgrid : 0 < (S.call R.launch).grid r)
    (hph : ph < (S.call R.launch).width) (harr : ∀ n, stage.arrived n = 0) (hcount : stage.HasCounted)
    {go : ℕ → ℕ} : S.Gather r { R.move b (S.behind R.launch r rnd ph b) with go := go }
      (S.key R.launch rnd (ph + 1)) := by
  have hne : 2 * S.epoch R.launch rnd + ph ≠ S.key R.launch rnd (ph + 1) := Nat.ne_of_lt (lt_key_succ hph)
  have hzero : S.waiting r { R.move b (S.behind R.launch r rnd ph b) with go := go } (S.key R.launch rnd (ph + 1)) = 0 := by
    rw [waiting, Finset.card_eq_zero, Finset.filter_eq_empty_iff]
    intro b' hb'
    by_cases heq : b' = b
    · subst heq
      simp only [Rank.move, Function.update_self]
      exact id
    · simp only [Rank.move, Function.update_of_ne heq]
      rw [h.others b' (Finset.mem_range.mp hb') heq]
      exact hne
  refine ⟨fun b' hb' => ?_, ?_, fun ph' => ?_, ?_⟩
  · by_cases heq : b' = b
    · subst heq
      simp only [Rank.move, Function.update_self]
      exact rfl
    · simp only [Rank.move, Function.update_of_ne heq]
      rw [h.others b' hb' heq]
      exact .inr rfl
  · rw [hzero]
    exact hgrid
  · have := h.arr ph'
    rw [harr, ite_self] at this
    rw [hzero, ite_self]
    exact this
  · have hctr := h.ctr
    change R.ctr = S.before (if S.key R.launch rnd (ph + 1) = S.edge (R.launch + 1) then R.launch + 1 else R.launch) %
      2 ^ 32
    simp only [key_succ_eq_iff hph]
    simp only [hcount, and_true] at hctr
    exact hctr

end Lead

end Script
end SuffixHybrid.HostAr
