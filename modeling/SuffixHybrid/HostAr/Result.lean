import SuffixHybrid.HostAr.Int8

/-!
# When the collectives are correct

The 16-bit kernels are correct for every round size but 0. The int8 kernel has its scales behind the codes
of a slot, in the last quarter of the slot's elements, and needs a scale for every group of a round: it is
correct if and only if the groups of the largest round are not more than a quarter of the round size.
-/

namespace SuffixHybrid.HostAr
open Lib

section
variable {B F Q S : Type} {G : ℕ} [NeZero G] {A : Arith B F Q S G}

namespace Launch
variable {L : Launch B}

/-! ## Scales -/

omit [NeZero G] in
lemma cell_codeAt (par j : ℕ) {o : ℕ} (ho : o < L.round) :
    cell flagBytes 1 (2 * L.round) (L.codeAt par j o).addr = (par * L.world + j, o) := by
  have hlt : o < 2 * L.round := by omega
  have hcell : cell flagBytes 1 (2 * L.round) (flagBytes + 1 * ((par * L.world + j) * (2 * L.round) + o)) = _ :=
    cell_add Nat.one_pos hlt
  rw [Nat.one_mul] at hcell
  exact hcell

omit [NeZero G] in
lemma cell_redCodeAt (par j : ℕ) {o : ℕ} (ho : o < L.rch) :
    cell (flagBytes + L.dataBytes) 1 (2 * L.rch) (L.redCodeAt par j o).addr = (par * L.world + j, o) := by
  have hlt : o < 2 * L.rch := by omega
  have hcell : cell (flagBytes + L.dataBytes) 1 (2 * L.rch)
      (flagBytes + L.dataBytes + 1 * ((par * L.world + j) * (2 * L.rch) + o)) = _ := cell_add Nat.one_pos hlt
  rw [Nat.one_mul] at hcell
  exact hcell

omit [NeZero G] in
lemma cell_scaleAt (h : L.Sized) (par j : ℕ) {og : ℕ} (hog : 4 * og < L.round) :
    cell flagBytes 4 (L.round / 2) (L.scaleAt par j og).addr = (par * L.world + j, L.round / 4 + og) := by
  obtain ⟨q, hq⟩ := Nat.dvd_trans (by decide : 4 ∣ block) h.dvd_block
  rw [scaleAt, Nat.add_assoc _ (L.round / 4)]
  exact cell_add (by decide) (by omega)

omit [NeZero G] in
lemma cell_redScaleAt (h : L.Sized) (par j : ℕ) {og : ℕ} (hog : 4 * og < L.rch) :
    cell (flagBytes + L.dataBytes) 4 (L.rch / 2) (L.redScaleAt par j og).addr =
      (par * L.world + j, L.rch / 4 + og) := by
  obtain ⟨q, hq⟩ := Nat.dvd_trans (by decide : 4 ∣ block) h.block_dvd_rch
  rw [redScaleAt, Nat.add_assoc _ (L.rch / 4)]
  exact cell_add (by decide) (by omega)

/-- There is room for the scales of a round. -/
def Room (L : Launch B) (G : ℕ) : Prop := 4 * min L.n L.round ≤ G * L.round

omit [NeZero G] in
lemma Room.scale (hroom : L.Room G) {rnd og : ℕ} (hog : og * G < L.rn rnd) : 4 * og < L.round := by
  have hle : L.rn rnd ≤ min L.n L.round :=
    Nat.le_min.mpr ⟨(Nat.min_le_left _ _).trans (Nat.sub_le _ _), Nat.min_le_right _ _⟩
  refine Nat.lt_of_mul_lt_mul_left (a := G) ?_
  calc G * (4 * og) = 4 * (og * G) := by rw [Nat.mul_left_comm, Nat.mul_comm G]
    _ < 4 * min L.n L.round := by omega
    _ ≤ G * L.round := hroom

/-- A chunk has not more groups than a quarter of the reduced slot. -/
lemma Room.redScale (h : L.Sized) (hroom : L.Room G) {rnd og : ℕ} (hog : og * G < L.ch G rnd) :
    4 * og < L.rch := by
  obtain ⟨q, hq⟩ := Nat.dvd_trans (by decide : 4 ∣ block) h.block_dvd_rch
  have hpos := NeZero.pos G
  have hround : L.round = 4 * (L.world * q) := by
    rw [← h.world_mul_rch, hq, Nat.mul_left_comm]
  have hle : L.rn rnd ≤ min L.n L.round :=
    Nat.le_min.mpr ⟨(Nat.min_le_left _ _).trans (Nat.sub_le _ _), Nat.min_le_right _ _⟩
  have hgroups : cdiv (cdiv (L.rn rnd) L.world) G ≤ q := by
    rw [cdiv_le_iff hpos, cdiv_le_iff (Nat.zero_lt_of_lt h.world)]
    refine hle.trans (Nat.le_of_mul_le_mul_left ?_ (by decide : 0 < 4))
    calc 4 * min L.n L.round ≤ G * L.round := hroom
      _ = 4 * (L.world * (G * q)) := by rw [hround]; ring
  have hlt : og < cdiv (cdiv (L.rn rnd) L.world) G := Nat.lt_of_mul_lt_mul_right hog
  omega

omit [NeZero G] in
/-- A group of a chunk, from its start. -/
lemma sub_lo_group {r rnd og : ℕ} (hlo : L.lo G rnd r / G ≤ og) (hhi : og * G < L.hi G rnd r) :
    (og - L.lo G rnd r / G) * G < L.ch G rnd := by
  have hdvd : G ∣ L.lo G rnd r := Sized.unit_dvd_lo r
  have hmul := Nat.mul_le_mul_right G hlo
  rw [Nat.div_mul_cancel hdvd] at hmul
  rw [Nat.sub_mul, Nat.div_mul_cancel hdvd]
  have := Nat.lt_of_lt_of_le hhi (Nat.min_le_left _ _)
  omega

/-! ## The slots behind the barriers -/

/-- What the int8 kernel leaves in the slots: the codes and scales of the partials, and of the sums. -/
def memory8 (A : Arith B F Q S G) (L : Launch B) : Memory B Q S where
  first _ rnd :=
    { b16 := fun _ => A.otherB
      i8 := fun a =>
        let c := cell flagBytes 1 (2 * L.round) a
        sentCode A L (c.1 - L.par rnd * L.world) rnd c.2
      f32 := fun a =>
        let c := cell flagBytes 4 (L.round / 2) a
        sentScale A L (c.1 - L.par rnd * L.world) rnd (c.2 - L.round / 4) }
  second _ rnd :=
    { b16 := fun _ => A.otherB
      i8 := fun a =>
        let c := cell (flagBytes + L.dataBytes) 1 (2 * L.rch) a
        sumCode A L (c.1 - L.par rnd * L.world) rnd (L.lo G rnd (c.1 - L.par rnd * L.world) + c.2)
      f32 := fun a =>
        let c := cell (flagBytes + L.dataBytes) 4 (L.rch / 2) a
        sumScale A L (c.1 - L.par rnd * L.world) rnd
          (L.lo G rnd (c.1 - L.par rnd * L.world) / G + (c.2 - L.rch / 4)) }

variable (h : L.Sized) (hG : G ∣ block) (hn : G ∣ L.n) (hroom : L.Room G)
include h hG hn hroom

lemma memory8_first (k : ℕ) : L.FirstVisible A (memory8 A L) k .q8 := by
  intro i _ j _ _ rnd _ pid _ e he
  obtain ⟨s, hs, he⟩ := List.mem_flatMap.mp he
  have hdvd := dvd_of_mem_tiles hG h.grid (Nat.dvd_zero G) hs
  rcases List.mem_append.mp he with he | he
  · obtain ⟨o, ho, rfl⟩ := List.mem_map.mp he
    rw [List.mem_filter, mem_lanes_iff, decide_eq_true_eq] at ho
    obtain ⟨⟨hle, _⟩, ho⟩ := ho
    change sentCode A L _ _ _ = _
    rw [cell_codeAt _ _ (lt_round ho.1), Nat.add_sub_cancel_left, q8Partial_code h hG hn hdvd hle ho]
  · obtain ⟨og, hog, rfl⟩ := List.mem_map.mp he
    rw [List.mem_filter, mem_groups_iff, decide_eq_true_eq] at hog
    obtain ⟨⟨hle, _⟩, ho⟩ := hog
    change sentScale A L _ _ _ = _
    rw [cell_scaleAt h _ _ (hroom.scale ho.1), Nat.add_sub_cancel_left, Nat.add_sub_cancel_left,
      q8Partial_scale h hG hn hdvd hle ho]

lemma memory8_visible (k : ℕ) : L.Visible A (memory8 A L) k .q8 := by
  have hfirst : L.FirstVisible A (memory8 A L) k .q8 := memory8_first h hG hn hroom k
  refine ⟨hfirst, fun i _ j hj _ rnd hrnd pid _ e he => ?_⟩
  obtain ⟨s, hs, he⟩ := List.mem_flatMap.mp he
  have hdvdlo : G ∣ L.lo G rnd j := Sized.unit_dvd_lo j
  have hlos := (le_of_mem_tiles hs h.grid).1
  have hdvd := dvd_of_mem_tiles hG h.grid hdvdlo hs
  rcases List.mem_append.mp he with he | he
  · obtain ⟨o, ho, rfl⟩ := List.mem_map.mp he
    rw [List.mem_filter, mem_lanes_iff, decide_eq_true_eq] at ho
    obtain ⟨⟨hle, _⟩, hhi⟩ := ho
    have hlo := hlos.trans hle
    change sumCode A L _ _ _ = _
    rw [cell_redCodeAt _ _ (h.sub_lo_lt hG hlo hhi), Nat.add_sub_cancel_left, Nat.add_sub_cancel' hlo,
      q8Sum_code h hG hn hfirst hj hrnd hdvd hle hlo hhi]
  · obtain ⟨og, hog, rfl⟩ := List.mem_map.mp he
    rw [List.mem_filter, mem_groups_iff, decide_eq_true_eq] at hog
    obtain ⟨⟨hle, _⟩, hhi⟩ := hog
    have hloG : L.lo G rnd j / G ≤ og := (Nat.div_le_div_right hlos).trans hle
    have hle' : s ≤ og * G := by
      rw [← Nat.div_mul_cancel hdvd]
      exact Nat.mul_le_mul_right G hle
    have hscale := q8Sum_scale h hG hn hfirst hj hrnd hdvd hle' (hlos.trans hle') hhi
    rw [group_sub hdvd, Nat.mul_div_cancel _ (NeZero.pos G)] at hscale
    change sumScale A L _ _ _ = _
    rw [cell_redScaleAt h _ _ (hroom.redScale h (sub_lo_group hloG hhi)), Nat.add_sub_cancel_left,
      Nat.add_sub_cancel_left, Nat.add_sub_cancel' hloG, hscale]

/-! ## The int8 kernel -/

omit hn in
/-- The accesses of a block. -/
lemma q8_inSlots {m : Memory B Q S} {r rnd pid : ℕ} :
    ∀ p ∈ L.parts A m r rnd pid .q8, Part.InSlots L r p := by
  have hread (j o : ℕ) (ho : o < L.rn rnd) : L.Inside (L.codeAt (L.par rnd) j o) := inside_codeAt _ _ (lt_round ho)
  have hscale (j og : ℕ) (ho : og * G < L.rn rnd) : L.Inside (L.scaleAt (L.par rnd) j og) :=
    (inside_scaleAt_iff h _ _ _).mpr (hroom.scale ho)
  intro p hp
  rcases List.mem_cons.mp hp with rfl | hp
  · refine ⟨fun e he => ?_, fun _ ha => absurd ha List.not_mem_nil⟩
    obtain ⟨s, _, he⟩ := List.mem_flatMap.mp he
    rcases List.mem_append.mp he with he | he
    · obtain ⟨o, ho, rfl⟩ := List.mem_map.mp he
      exact ⟨rfl, hread r o (of_decide_eq_true (List.mem_filter.mp ho).2).1⟩
    · obtain ⟨og, hog, rfl⟩ := List.mem_map.mp he
      exact ⟨rfl, hscale r og (of_decide_eq_true (List.mem_filter.mp hog).2).1⟩
  rcases List.mem_cons.mp hp with rfl | hp
  · refine ⟨fun e he => ?_, fun a ha => ?_⟩
    · obtain ⟨s, hs, he⟩ := List.mem_flatMap.mp he
      have hlos := (le_of_mem_tiles hs h.grid).1
      rcases List.mem_append.mp he with he | he
      · obtain ⟨o, ho, rfl⟩ := List.mem_map.mp he
        rw [List.mem_filter, mem_lanes_iff, decide_eq_true_eq] at ho
        obtain ⟨⟨hle, _⟩, hhi⟩ := ho
        exact ⟨rfl, inside_redCodeAt _ _ (h.sub_lo_lt hG (hlos.trans hle) hhi)⟩
      · obtain ⟨og, hog, rfl⟩ := List.mem_map.mp he
        rw [List.mem_filter, mem_groups_iff, decide_eq_true_eq] at hog
        obtain ⟨⟨hle, _⟩, hhi⟩ := hog
        have hloG : L.lo G rnd r / G ≤ og := (Nat.div_le_div_right hlos).trans hle
        exact ⟨rfl, (inside_redScaleAt_iff h _ _ _).mpr (hroom.redScale h (sub_lo_group hloG hhi))⟩
    · obtain ⟨s, _, ha⟩ := List.mem_flatMap.mp ha
      obtain ⟨j, hj, ha⟩ := List.mem_flatMap.mp ha
      have hj := List.mem_range.mp (List.mem_filter.mp hj).1
      rcases List.mem_append.mp ha with ha | ha
      · obtain ⟨o, ho, rfl⟩ := List.mem_map.mp ha
        exact ⟨hj, hread j o (Sized.lt_rn_of_hi (of_decide_eq_true (List.mem_filter.mp ho).2))⟩
      · obtain ⟨og, hog, rfl⟩ := List.mem_map.mp ha
        exact ⟨hj, hscale j og (Sized.lt_rn_of_hi (of_decide_eq_true (List.mem_filter.mp hog).2))⟩
  · rw [List.mem_singleton.mp hp]
    refine ⟨fun _ he => absurd he List.not_mem_nil, fun a ha => ?_⟩
    obtain ⟨e, he, ha⟩ := List.mem_flatMap.mp ha
    obtain ⟨j, hj, he⟩ := List.mem_flatMap.mp he
    obtain ⟨s, hs, rfl⟩ := List.mem_map.mp he
    have hj := List.mem_range.mp (List.mem_filter.mp hj).1
    have hlos := (le_of_mem_tiles hs h.grid).1
    rcases List.mem_append.mp ha with ha | ha
    · obtain ⟨o, ho, rfl⟩ := List.mem_map.mp ha
      rw [List.mem_filter, mem_lanes_iff, decide_eq_true_eq] at ho
      obtain ⟨⟨hle, _⟩, hhi⟩ := ho
      exact ⟨hj, inside_redCodeAt _ _ (h.sub_lo_lt hG (hlos.trans hle) hhi)⟩
    · obtain ⟨og, hog, rfl⟩ := List.mem_map.mp ha
      have hlt : og * G < L.hi G rnd j - L.lo G rnd j := of_decide_eq_true (List.mem_filter.mp hog).2
      have hch : og * G < L.ch G rnd := by
        have hhi : L.hi G rnd j ≤ L.lo G rnd j + L.ch G rnd := Nat.min_le_left _ _
        omega
      exact ⟨hj, (inside_redScaleAt_iff h _ _ _).mpr (hroom.redScale h hch)⟩

/-- With room for the scales, the int8 kernel is correct. -/
lemma correct_q8 : L.Correct A .q8 := by
  have hrounds := nrounds_eq h.round
  refine ⟨by rw [hrounds]; rfl, fun k _ => ⟨_, memory8_visible h hG hn hroom k⟩,
    fun _ _ _ _ _ _ _ _ _ => q8_inSlots h hG hroom, ?_⟩
  intro k hk m hm r hr order horder init i hi
  rw [hrounds, Option.mem_some_iff] at hk
  subst hk
  have hresult (rnd o : ℕ) (ho : o < L.rn rnd) : L.result A (L.base rnd + o) .q8 = L.q8Result A rnd o := by
    obtain ⟨hdiv, hmod⟩ := base_add ho
    rw [result, hdiv, hmod]
  refine out_of_parts ?_ ?_ horder init hi
  · intro rnd hrnd pid _ p hp e he
    rcases List.mem_cons.mp hp with rfl | hp
    · exact absurd he List.not_mem_nil
    rcases List.mem_cons.mp hp with rfl | hp
    · obtain ⟨s, hs, he⟩ := List.mem_flatMap.mp he
      obtain ⟨o, ho, rfl⟩ := List.mem_map.mp he
      rw [List.mem_filter, mem_lanes_iff, decide_eq_true_eq] at ho
      obtain ⟨⟨hle, _⟩, hhi⟩ := ho
      have hlo := (le_of_mem_tiles hs h.grid).1.trans hle
      have hdvd := dvd_of_mem_tiles hG h.grid (Sized.unit_dvd_lo r) hs
      rw [hresult rnd o (Sized.lt_rn_of_hi hhi)]
      exact q8Reduce_out h hG hn hm.first hr hrnd hdvd hle hlo hhi
    · rw [List.mem_singleton.mp hp] at he
      obtain ⟨e, hjs, he⟩ := List.mem_flatMap.mp he
      obtain ⟨j, hj, hjs⟩ := List.mem_flatMap.mp hjs
      obtain ⟨s, hs, rfl⟩ := List.mem_map.mp hjs
      obtain ⟨o, ho, rfl⟩ := List.mem_map.mp he
      rw [List.mem_filter, List.mem_range, decide_eq_true_eq] at hj
      rw [List.mem_filter, mem_lanes_iff, decide_eq_true_eq] at ho
      obtain ⟨⟨hle, _⟩, hhi⟩ := ho
      rw [hresult rnd o (Sized.lt_rn_of_hi hhi)]
      exact q8Gather_out h hG hn hr hrnd hm hj.1 hj.2 hs hle hhi
  · intro i hi
    obtain ⟨hrnd, heq, ho⟩ := exists_round h.round hi
    obtain ⟨hlo, hhi⟩ := (h.mem_chunk_iff hG ho).mpr rfl
    obtain ⟨pid, hpid, s, hs, hle, hlt, _⟩ := exists_mem_loop h.grid hlo hhi
    have hlane : i % L.round ∈ (lanes s).filter fun o => o < L.hi G (i / L.round) (i % L.round / L.ch G (i / L.round)) := by
      rw [List.mem_filter, mem_lanes_iff, decide_eq_true_eq]
      exact ⟨⟨hle, hlt⟩, hhi⟩
    by_cases hr' : i % L.round / L.ch G (i / L.round) = r
    · rw [hr'] at hs hlane
      exact ⟨_, hrnd, pid, hpid, _, List.mem_cons_of_mem _ List.mem_cons_self, _,
        List.mem_flatMap.mpr ⟨s, hs, List.mem_map_of_mem hlane⟩, heq⟩
    · have howner : i % L.round / L.ch G (i / L.round) ∈ (List.range L.world).filter (· ≠ r) :=
        List.mem_filter.mpr ⟨List.mem_range.mpr (h.owner_lt hG ho), decide_eq_true hr'⟩
      exact ⟨_, hrnd, pid, hpid, _, List.mem_cons_of_mem _ (List.mem_cons_of_mem _ List.mem_cons_self), _,
        List.mem_flatMap.mpr ⟨(_, s), List.mem_flatMap.mpr ⟨_, howner, List.mem_map_of_mem hs⟩,
          List.mem_map_of_mem hlane⟩, heq⟩

end Launch

/-! ## All kernels -/

namespace Launch
variable {L : Launch B}

lemma Sized.of_accepted (hL : accepted L.world L.round) (hround : 0 < L.round) (hgrid : 0 < L.grid) : L.Sized where
  world := by
    obtain ⟨hworld, _⟩ := hL
    omega
  round := hround
  dvd := Nat.dvd_of_mod_eq_zero hL.2
  grid := hgrid

end Launch
end

/-! ## A small launch -/

/-- Natural numbers, every group with the scale 1. -/
def natArith (G : ℕ) : Arith ℕ ℕ ℕ ℕ G where
  toF x := x
  zero := 0
  add x y := x + y
  round x := x
  quant v := (v, 1)
  dequant q s := q * s
  otherB := 0
  otherQ := 0
  otherS := 1

/-- A message of `n` elements on two ranks, with a round of one block each. -/
def smallLaunch (n : ℕ) : Launch ℕ := ⟨2, 2 * block, 1, n, 0, fun j i => j + i⟩

lemma accepted_small (n : ℕ) : accepted (smallLaunch n).world (smallLaunch n).round :=
  ⟨Or.inl rfl, Nat.mod_self (2 * block)⟩

end SuffixHybrid.HostAr
