import SuffixHybrid.HostAr.Result
import SuffixHybrid.HostAr.Progress

/-!
# The kernels on the barrier machine

A sequence of collectives, the same on all ranks, is a script: the parts of its kernels, with the barriers between them.
The script is sound. What a rank loads behind a barrier is, access by access, what some block of another rank has stored
before it, and the slots lie apart from each other.
-/

namespace SuffixHybrid.HostAr
open Lib

/-- A launch of a kernel: `n` elements and the inputs of the ranks. -/
structure Collective (B : Type) where
  kernel : Kernel
  n : ℕ
  grid : ℕ
  x : ℕ → ℕ → B

/-- A host all-reduce object and the collectives that run on it. -/
structure Comm (B : Type) where
  world : ℕ
  round : ℕ
  seq : ℕ → Collective B

/-- The accesses of a part. -/
def Part.ops {B Q S : Type} (p : Part B Q S) : List Op := p.loads.map .load ++ p.stores.map fun e => .store e.1

lemma Part.load_mem_iff {B Q S : Type} {p : Part B Q S} {a : Access} : .load a ∈ p.ops ↔ a ∈ p.loads := by
  simp only [Part.ops, List.mem_append, List.mem_map, Op.load.injEq, exists_eq_right, reduceCtorEq, and_false,
    exists_false, or_false]

lemma Part.store_mem_iff {B Q S : Type} {p : Part B Q S} {a : Access} : .store a ∈ p.ops ↔ ∃ e ∈ p.stores, e.1 = a := by
  simp only [Part.ops, List.mem_append, List.mem_map, Op.store.injEq, reduceCtorEq, and_false, exists_false, false_or]

namespace Launch
variable {B F Q S : Type} {G : ℕ} [NeZero G] {A : Arith B F Q S G} {L : Launch B} {r rnd pid : ℕ} {v : View B Q S}

/-! ## Slots -/

/-- The slots of a buffer follow each other. -/
lemma cell_le {k k' m : ℕ} (h : k < k') : k * m * 2 + m * 2 ≤ k' * m * 2 := by
  have hle := Nat.mul_le_mul_right m (Nat.succ_le_of_lt h)
  rw [Nat.succ_mul] at hle
  omega

lemma cell_lt {par rank : ℕ} (hpar : par < 2) (hrank : rank < L.world) : par * L.world + rank < 2 * L.world := by
  have := Nat.mul_le_mul_right L.world (Nat.le_of_lt_succ hpar)
  omega

lemma cell_inj {par par' rank rank' : ℕ} (hrank : rank < L.world) (hrank' : rank' < L.world)
    (h : par * L.world + rank = par' * L.world + rank') : par = par' ∧ rank = rank' := by
  have hdiv := congrArg (· / L.world) h
  have hmod := congrArg (· % L.world) h
  have hworld := Nat.zero_lt_of_lt hrank
  simp only [Nat.mul_comm _ L.world, Nat.mul_add_div hworld, Nat.div_eq_of_lt hrank, Nat.div_eq_of_lt hrank',
    Nat.add_zero] at hdiv
  simp only [Nat.mul_comm _ L.world, Nat.mul_add_mod, Nat.mod_eq_of_lt hrank, Nat.mod_eq_of_lt hrank'] at hmod
  exact ⟨hdiv, hmod⟩

/-- Different slots have no bytes in common. -/
lemma slots_apart {a a' : Access} (hin : L.Inside a) (hin' : L.Inside a') (hpar : a.slot.par < 2)
    (hpar' : a'.slot.par < 2) (hrank : a.slot.rank < L.world) (hrank' : a'.slot.rank < L.world)
    (hne : a.slot ≠ a'.slot) : a.Apart a' := by
  obtain ⟨⟨reduced, par, rank⟩, addr, size⟩ := a
  obtain ⟨⟨reduced', par', rank'⟩, addr', size'⟩ := a'
  have hdata {par rank : ℕ} (hpar : par < 2) (hrank : rank < L.world) :
      (par * L.world + rank) * L.round * 2 + L.round * 2 ≤ L.dataBytes := cell_le (cell_lt hpar hrank)
  -- two slots of one buffer
  have hsame (hred : reduced = reduced') : par * L.world + rank < par' * L.world + rank' ∨
      par' * L.world + rank' < par * L.world + rank := by
    refine Nat.lt_or_gt_of_ne fun heq => hne ?_
    obtain ⟨rfl, rfl⟩ := cell_inj hrank hrank' heq
    rw [hred]
  simp only [Inside, slotStart, slotSize] at hin hin' hpar hpar' hrank hrank'
  change addr + size ≤ addr' ∨ addr' + size' ≤ addr
  cases reduced with
  | false =>
    simp only [Bool.false_eq_true, if_false] at hin
    have := hdata hpar hrank
    cases reduced' with
    | false =>
      simp only [Bool.false_eq_true, if_false] at hin'
      rcases hsame rfl with hlt | hlt
      · have := cell_le (m := L.round) hlt
        omega
      · have := cell_le (m := L.round) hlt
        omega
    | true =>
      simp only [if_true] at hin'
      omega
  | true =>
    simp only [if_true] at hin
    cases reduced' with
    | false =>
      simp only [Bool.false_eq_true, if_false] at hin'
      have := hdata hpar' hrank'
      omega
    | true =>
      simp only [if_true] at hin'
      rcases hsame rfl with hlt | hlt
      · have := cell_le (m := L.rch) hlt
        omega
      · have := cell_le (m := L.rch) hlt
        omega

/-! ## Stores -/

/-- Before the first barrier a rank stores in its partial slot. -/
lemma part1_slot (K : Kernel) : ∀ e ∈ (L.part1 A r rnd pid K).stores, e.1.slot = ⟨false, L.par rnd, r⟩ := by
  have hpartial (oneShot : Bool) : ∀ e ∈ (L.harPartial oneShot r rnd pid : Part B Q S).stores,
      e.1.slot = ⟨false, L.par rnd, r⟩ := by
    intro e he
    obtain ⟨s, _, he⟩ := List.mem_flatMap.mp he
    obtain ⟨o, _, rfl⟩ := List.mem_map.mp he
    rfl
  intro e he
  cases K with
  | oneShot => exact hpartial true e he
  | twoShot => exact hpartial false e he
  | q8 =>
    obtain ⟨s, _, he⟩ := List.mem_flatMap.mp he
    rcases List.mem_append.mp he with he | he
    · obtain ⟨o, _, rfl⟩ := List.mem_map.mp he
      rfl
    · obtain ⟨og, _, rfl⟩ := List.mem_map.mp he
      rfl
  | gather =>
    obtain ⟨o, _, rfl⟩ := List.mem_map.mp he
    rfl

/-- Behind it the two-shot kernels store in their reduced slot. -/
lemma part2_slot (K : Kernel) : ∀ e ∈ (L.part2 A v r rnd pid K).stores,
    (K = .twoShot ∨ K = .q8) ∧ e.1.slot = ⟨true, L.par rnd, r⟩ := by
  intro e he
  cases K with
  | oneShot => exact absurd he List.not_mem_nil
  | twoShot =>
    obtain ⟨o, _, rfl⟩ := List.mem_map.mp he
    exact ⟨.inl rfl, rfl⟩
  | q8 =>
    obtain ⟨s, _, he⟩ := List.mem_flatMap.mp he
    rcases List.mem_append.mp he with he | he
    · obtain ⟨o, _, rfl⟩ := List.mem_map.mp he
      exact ⟨.inr rfl, rfl⟩
    · obtain ⟨og, _, rfl⟩ := List.mem_map.mp he
      exact ⟨.inr rfl, rfl⟩
  | gather => exact absurd he List.not_mem_nil

omit [NeZero G] in
lemma part3_stores (K : Kernel) : (L.part3 A v r rnd pid K).stores = [] := by
  cases K <;> rfl

lemma part1_loads (K : Kernel) : (L.part1 A r rnd pid K).loads = [] := by
  cases K <;> rfl

/-! ## Loads -/

/-- Every partial that is loaded has been stored by the rank of its slot. -/
lemma part2_loads (h : L.Sized) {K : Kernel} (hq8 : K = .q8 → G ∣ block ∧ G ∣ L.n) :
    ∀ a ∈ (L.part2 A v r rnd pid K).loads, ∃ j < L.world, ∃ pid' < L.grid, ∃ e ∈ (L.part1 A j rnd pid' K).stores,
      e.1 = a := by
  have hunit : 8 ∣ block := by decide
  cases K with
  | oneShot =>
    intro a ha
    obtain ⟨o, ho, ha⟩ := List.mem_flatMap.mp ha
    obtain ⟨_, _, _, _, ho⟩ := mem_loop_iff.mp ho
    obtain ⟨j, hj, rfl⟩ := List.mem_map.mp ha
    obtain ⟨pid', hpid', hstore⟩ := harPartial_store (Q := Q) (S := S) h.grid (r := j) ho (.inl rfl)
    exact ⟨j, List.mem_range.mp (List.mem_filter.mp hj).1, pid', hpid', _, hstore, rfl⟩
  | twoShot =>
    intro a ha
    obtain ⟨o, ho, ha⟩ := List.mem_flatMap.mp ha
    obtain ⟨s, hs, hlo, _, hhi⟩ := mem_loop_iff.mp ho
    obtain ⟨j, hj, rfl⟩ := List.mem_map.mp ha
    rw [List.mem_filter, List.mem_range, decide_eq_true_eq] at hj
    have hrn := Sized.lt_rn_of_hi hhi
    have howner := (h.mem_chunk_iff hunit hrn).mp ⟨(le_of_mem_tiles hs h.grid).1.trans hlo, hhi⟩
    have hothers := (h.others_iff hunit (r := j) hrn).mpr (howner.trans_ne hj.2.symm)
    obtain ⟨pid', hpid', hstore⟩ := harPartial_store (Q := Q) (S := S) h.grid hrn (.inr hothers)
    exact ⟨j, hj.1, pid', hpid', _, hstore, rfl⟩
  | q8 =>
    obtain ⟨hG, hn⟩ := hq8 rfl
    intro a ha
    obtain ⟨s, hs, ha⟩ := List.mem_flatMap.mp ha
    obtain ⟨j, hj, ha⟩ := List.mem_flatMap.mp ha
    rw [List.mem_filter, List.mem_range, decide_eq_true_eq] at hj
    have hlos := (le_of_mem_tiles hs h.grid).1
    have hothers {o : ℕ} (hlo : L.lo G rnd r ≤ o) (hhi : o < L.hi G rnd r) : L.Others G rnd j o := by
      have hrn := Sized.lt_rn_of_hi hhi
      exact (h.others_iff hG hrn).mpr (((h.mem_chunk_iff hG hrn).mp ⟨hlo, hhi⟩).trans_ne hj.2.symm)
    rcases List.mem_append.mp ha with ha | ha
    · obtain ⟨o, ho, rfl⟩ := List.mem_map.mp ha
      rw [List.mem_filter, mem_lanes_iff, decide_eq_true_eq] at ho
      obtain ⟨pid', hpid', hstore⟩ := q8Quant_code (A := A) h hG hn (hothers (hlos.trans ho.1.1) ho.2)
      exact ⟨j, hj.1, pid', hpid', _, hstore, rfl⟩
    · obtain ⟨og, hog, rfl⟩ := List.mem_map.mp ha
      rw [List.mem_filter, mem_groups_iff, decide_eq_true_eq] at hog
      have hdvd := dvd_of_mem_tiles hG h.grid (Sized.unit_dvd_lo r) hs
      have hle := Nat.mul_le_mul_right G hog.1.1
      rw [Nat.div_mul_cancel hdvd] at hle
      obtain ⟨pid', hpid', hstore⟩ := q8Quant_scale (A := A) h hG hn (hothers (hlos.trans hle) hog.2)
      exact ⟨j, hj.1, pid', hpid', _, hstore, rfl⟩
  | gather =>
    intro a ha
    obtain ⟨e, he, rfl⟩ := List.mem_map.mp ha
    obtain ⟨hj, _, s, _, _, _, ho⟩ := mem_others_iff.mp he
    obtain ⟨pid', hpid', hloop⟩ := exists_mem_loop h.grid (Nat.zero_le e.2) ho
    exact ⟨e.1, hj, pid', hpid', _, List.mem_map_of_mem (mem_loop_iff.mpr hloop), rfl⟩

/-- Every reduced value that is loaded has been stored by the owner of its chunk. -/
lemma part3_loads (h : L.Sized) {K : Kernel} (hq8 : K = .q8 → G ∣ block) (v' : View B Q S) :
    ∀ a ∈ (L.part3 A v r rnd pid K).loads, ∃ j < L.world, ∃ pid' < L.grid, ∃ e ∈ (L.part2 A v' j rnd pid' K).stores,
      e.1 = a := by
  cases K with
  | oneShot => exact fun _ ha => absurd ha List.not_mem_nil
  | twoShot =>
    intro a ha
    obtain ⟨e, he, rfl⟩ := List.mem_map.mp ha
    obtain ⟨hj, _, s, hs, hlo, _, hhi⟩ := mem_others_iff.mp he
    have hle := (le_of_mem_tiles hs h.grid).1.trans hlo
    obtain ⟨pid', hpid', hstore⟩ := harReduce_store (A := A) h.grid v' hle hhi
    exact ⟨e.1, hj, pid', hpid', _, hstore, rfl⟩
  | q8 =>
    have hG := hq8 rfl
    intro a ha
    obtain ⟨e, he, ha⟩ := List.mem_flatMap.mp ha
    obtain ⟨j, hj, he⟩ := List.mem_flatMap.mp he
    obtain ⟨s, hs, rfl⟩ := List.mem_map.mp he
    have hj := List.mem_range.mp (List.mem_filter.mp hj).1
    have hlos := (le_of_mem_tiles hs h.grid).1
    have hdvdlo : G ∣ L.lo G rnd j := Sized.unit_dvd_lo j
    rcases List.mem_append.mp ha with ha | ha
    · obtain ⟨o, ho, rfl⟩ := List.mem_map.mp ha
      rw [List.mem_filter, mem_lanes_iff, decide_eq_true_eq] at ho
      obtain ⟨pid', hpid', s', hs', hle, hlt, hhi⟩ := exists_mem_loop h.grid (hlos.trans ho.1.1) ho.2
      refine ⟨j, hj, pid', hpid', _, List.mem_flatMap.mpr ⟨s', hs', List.mem_append_left _ (List.mem_map.mpr
        ⟨o, ?_, rfl⟩)⟩, rfl⟩
      rw [List.mem_filter, mem_lanes_iff, decide_eq_true_eq]
      exact ⟨⟨hle, hlt⟩, hhi⟩
    · obtain ⟨og, hog, rfl⟩ := List.mem_map.mp ha
      have hlt : og * G < L.hi G rnd j - L.lo G rnd j := of_decide_eq_true (List.mem_filter.mp hog).2
      -- the owner counts the groups from the start of the round
      have hmul : (L.lo G rnd j / G + og) * G = L.lo G rnd j + og * G := by
        rw [Nat.add_mul, Nat.div_mul_cancel hdvdlo]
      have hlo : L.lo G rnd j ≤ (L.lo G rnd j / G + og) * G := by omega
      have hhi : (L.lo G rnd j / G + og) * G < L.hi G rnd j := by omega
      obtain ⟨pid', hpid', s', hs', hle, hlt, _⟩ := exists_mem_loop h.grid hlo hhi
      have hmem := mem_groups_of_tile hG (dvd_of_mem_tiles hG h.grid hdvdlo hs') hle hlt
      refine ⟨j, hj, pid', hpid', _, List.mem_flatMap.mpr ⟨s', hs', List.mem_append_right _ (List.mem_map.mpr
        ⟨L.lo G rnd j / G + og, ?_, rfl⟩)⟩, ?_⟩
      · rw [List.mem_filter, decide_eq_true_eq]
        exact ⟨hmem, hhi⟩
      · rw [Nat.add_sub_cancel_left]
  | gather => exact fun _ ha => absurd ha List.not_mem_nil

end Launch

/-! ## The script -/

/-- The kernels with a second barrier. -/
def Kernel.two : Kernel → Bool
  | .twoShot => true
  | .q8 => true
  | _ => false

namespace Comm
variable {B F Q S : Type} {G : ℕ} [NeZero G] (C : Comm B) (A : Arith B F Q S G) (v : View B Q S)

/-- `nrounds`. -/
def rounds (l : ℕ) : ℕ := cdiv (C.seq l).n C.round

/-- A launch, with the counter that those before it have left. -/
def launch (l : ℕ) : Launch B where
  world := C.world
  round := C.round
  grid := (C.seq l).grid
  n := (C.seq l).n
  ctr := (∑ i ∈ Finset.range l, C.rounds i) % 2 ^ 32
  x := (C.seq l).x

/-- The parts of a block, when its loads find `v`. -/
def part (l r rnd pid : ℕ) : ℕ → Part B Q S
  | 0 => (C.launch l).part1 A r rnd pid (C.seq l).kernel
  | 1 => (C.launch l).part2 A v r rnd pid (C.seq l).kernel
  | 2 => (C.launch l).part3 A v r rnd pid (C.seq l).kernel
  | _ => Launch.idle

/-- The script of a sequence of collectives. -/
def script : Script where
  world := C.world
  call l := ⟨C.rounds l, (C.seq l).kernel.two, fun _ => (C.seq l).grid⟩
  ops l r rnd part b := (C.part A v l r rnd b part).ops

/-- What the constructor and the launches check, with room for the scales of the int8 kernel. -/
structure Valid (C : Comm B) (G : ℕ) : Prop where
  accepted : accepted C.world C.round
  round : 0 < C.round
  grid : ∀ l, 0 < (C.seq l).grid
  q8 : ∀ l, (C.seq l).kernel = .q8 → G ∣ block ∧ G ∣ (C.seq l).n ∧ (C.launch l).Room G

variable {C A v} {l r rnd pid part : ℕ} {a : Access}

omit [NeZero G] in
lemma Valid.sized (h : C.Valid G) (l : ℕ) : (C.launch l).Sized :=
  .of_accepted h.accepted h.round (h.grid l)

lemma Valid.correct (h : C.Valid G) (l : ℕ) : (C.launch l).Correct A (C.seq l).kernel := by
  cases hK : (C.seq l).kernel with
  | oneShot => exact Launch.correct_oneShot (h.sized l)
  | twoShot => exact Launch.correct_twoShot (h.sized l)
  | q8 =>
    obtain ⟨hG, hn, hroom⟩ := h.q8 l hK
    exact Launch.correct_q8 (h.sized l) hG hn hroom
  | gather => exact Launch.correct_gather (h.sized l)

/-- The parity of a round, from the counter. -/
lemma par_eq (l rnd : ℕ) : (C.launch l).par rnd = (C.script A v).epoch l rnd % 2 := by
  change ((∑ i ∈ Finset.range l, C.rounds i) % 2 ^ 32 + (rnd + 1)) % 2 ^ 32 % 2 =
    ((∑ i ∈ Finset.range l, C.rounds i) + rnd + 1) % 2
  omega

/-- The parts of a block are those of its kernel. -/
lemma part_mem (hpart : part < 3) : C.part A v l r rnd pid part ∈
    (C.launch l).parts A ⟨fun _ _ => v, fun _ _ => v⟩ r rnd pid (C.seq l).kernel := by
  obtain rfl | rfl | rfl : part = 0 ∨ part = 1 ∨ part = 2 := by omega
  · exact List.mem_cons_self
  · exact List.mem_cons_of_mem _ List.mem_cons_self
  · exact List.mem_cons_of_mem _ (List.mem_cons_of_mem _ List.mem_cons_self)

/-- A part stores in the slot of its barrier. -/
lemma store_slot (ha : .store a ∈ (C.script A v).ops l r rnd part pid) :
    part < ((C.script A v).call l).width ∧ a.slot = ⟨decide (part = 1), (C.script A v).epoch l rnd % 2, r⟩ := by
  obtain ⟨e, he, rfl⟩ := Part.store_mem_iff.mp ha
  rw [← par_eq]
  match part, he with
  | 0, he => exact ⟨Call.width_pos _, Launch.part1_slot _ e he⟩
  | 1, he =>
    obtain ⟨hK, hslot⟩ := Launch.part2_slot _ e he
    refine ⟨?_, hslot⟩
    change 1 < if (C.seq l).kernel.two = true then 2 else 1
    rcases hK with hK | hK
    · rw [hK]
      decide
    · rw [hK]
      decide
  | 2, he =>
    have he : e ∈ ((C.launch l).part3 A v r rnd pid (C.seq l).kernel).stores := he
    rw [Launch.part3_stores] at he
    exact absurd he List.not_mem_nil
  | _ + 3, he => exact absurd he List.not_mem_nil

/-- A load of a part finds a store of the part before. -/
lemma load_store (h : C.Valid G) (ha : .load a ∈ (C.script A v).ops l r rnd part pid) : ∃ ph, part = ph + 1 ∧
    ∃ j < C.world, ∃ pid' < (C.seq l).grid, .store a ∈ (C.script A v).ops l j rnd ph pid' := by
  have ha := Part.load_mem_iff.mp ha
  match part, ha with
  | 0, ha =>
    have ha : a ∈ ((C.launch l).part1 A r rnd pid (C.seq l).kernel).loads := ha
    rw [Launch.part1_loads] at ha
    exact absurd ha List.not_mem_nil
  | 1, ha =>
    obtain ⟨j, hj, pid', hpid', hstore⟩ := Launch.part2_loads (h.sized l) (fun hK => ⟨(h.q8 l hK).1, (h.q8 l hK).2.1⟩) a ha
    exact ⟨0, rfl, j, hj, pid', hpid', Part.store_mem_iff.mpr hstore⟩
  | 2, ha =>
    obtain ⟨j, hj, pid', hpid', hstore⟩ := Launch.part3_loads (h.sized l) (fun hK => (h.q8 l hK).1) v a ha
    exact ⟨1, rfl, j, hj, pid', hpid', Part.store_mem_iff.mpr hstore⟩
  | _ + 3, ha => exact absurd ha List.not_mem_nil

/-- The stores of a run are in the slots. -/
lemma store_inside (h : C.Valid G) (ha : (C.script A v).Stores a) :
    (C.launch 0).Inside a ∧ a.slot.par < 2 ∧ a.slot.rank < C.world := by
  obtain ⟨l, r, hr, rnd, hrnd, part, b, hb, ha⟩ := ha
  obtain ⟨hpart, hslot⟩ := store_slot ha
  have hpart := hpart.trans_le (Call.width_le _)
  obtain ⟨e, he, rfl⟩ := Part.store_mem_iff.mp ha
  have hin := (h.correct (A := A) l).inside _ (Launch.nrounds_eq h.round) _ r hr rnd hrnd b hb _
    (part_mem (v := v) (hpart.trans (by decide)))
  rw [hslot]
  exact ⟨(hin.stores e he).2, Nat.mod_lt _ Nat.two_pos, hr⟩

/-- The collectives keep to the slots and to the barriers. -/
theorem script_sound (h : C.Valid G) : (C.script A v).Sound where
  grid _ _ l := h.grid l
  store _ _ _ _ _ _ _ _ _ ha := store_slot ha
  load l r _ rnd _ part b _ a ha := by
    obtain ⟨ph, rfl, j, hj, b', hb', ha'⟩ := load_store h ha
    exact ⟨ph, rfl, j, hj, b', hb', a, ha', rfl, rfl⟩
  apart a a' ha ha' hne := by
    obtain ⟨hin, hpar, hrank⟩ := store_inside h ha
    obtain ⟨hin', hpar', hrank'⟩ := store_inside h ha'
    exact Launch.slots_apart hin hin' hpar hpar' hrank hrank' hne

/-! ## Runs of collectives -/

/-- The barriers do what they are for, in all runs of a sequence of collectives. -/
theorem safe (h : C.Valid G) (hfresh : (C.script A v).Fresh) {V : Type} :
    ∀ s : State V, (C.script A v).Reachable s → (C.script A v).Safe s :=
  fun _ hs => hs.holds (script_sound h) hfresh

end Comm

/-! ## An endless sequence -/

/-- All kernels in turn, on two ranks with one block each. -/
def smallComm : Comm ℕ where
  world := 2
  round := 2 * block
  seq l := ⟨[.twoShot, .oneShot, .q8].getD (l % 4) .gather, 128, 1, fun j i => j + i⟩

/-- Its script, when all loads find 0. -/
def smallScript : Script := smallComm.script (natArith 64) ⟨fun _ => 0, fun _ => 0, fun _ => 0⟩

lemma valid_small : smallComm.Valid 64 where
  accepted := accepted_small 128
  round := by decide
  grid _ := Nat.one_pos
  q8 _ _ := ⟨by decide, show 64 ∣ 128 by decide, show 4 * min 128 (2 * block) ≤ 64 * (2 * block) by decide⟩

/-- Each launch takes one epoch. -/
lemma before_small (l : ℕ) : smallScript.before l = l := by
  have hrounds (i : ℕ) : (smallScript.call i).rounds = 1 := show cdiv 128 (2 * block) = 1 by decide
  simp only [Script.before, hrounds, Finset.sum_const, Finset.card_range, smul_eq_mul, Nat.mul_one]

lemma fresh_small : smallScript.Fresh := by
  rintro e ⟨l, rnd, hrnd, hwidth, rfl⟩ hle
  have hrounds (i : ℕ) : (smallScript.call i).rounds = 1 := show cdiv 128 (2 * block) = 1 by decide
  have hcall : smallScript.call (l - 4) = smallScript.call l := by
    simp only [smallScript, Comm.script, Comm.rounds, smallComm, show (l - 4) % 4 = l % 4 by
      rw [hrounds] at hrnd
      rw [Script.epoch, before_small] at hle
      omega]
  rw [hrounds] at hrnd
  rw [Script.epoch, before_small] at hle ⊢
  refine ⟨l - 4 + 0 + 1, ⟨l - 4, 0, ?_, ?_, ?_⟩, by omega, by omega, by omega⟩
  · rw [hrounds]
    exact Nat.one_pos
  · rw [hcall]
    exact hwidth
  · rw [Script.epoch, before_small]

theorem safe_small : smallScript.Safe (Script.init fun _ => (0 : ℕ)) :=
  Comm.safe valid_small fresh_small _ ⟨_, .refl⟩

end SuffixHybrid.HostAr
