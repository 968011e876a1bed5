import SuffixHybrid.HostAr.Kernel

/-!
# The 16-bit kernels

The one-shot and the two-shot all-reduce give the sum in rank order, rounded once, and the all-gather gives
the inputs one after the other. What a rank loads from the slot of another one is what this rank has stored
there in the same round: all of its partial in the one-shot kernels, all but its own chunk in the two-shot
one.
-/

namespace SuffixHybrid.HostAr
open Lib

namespace Launch
variable {B F Q S : Type} {G : ℕ} [NeZero G] {A : Arith B F Q S G} {L : Launch B}

lemma nrounds_eq (hround : 0 < L.round) : L.nrounds = some (cdiv L.n L.round) :=
  if_neg (Nat.ne_of_gt hround)

/-- Every part writes the right values, and every element is written by some part. -/
lemma out_of_parts {m : Memory B Q S} {r k : ℕ} {K : Kernel}
    (hval : ∀ rnd < k, ∀ pid < L.grid, ∀ p ∈ L.parts A m r rnd pid K, ∀ e ∈ p.out, e.2 = L.result A e.1 K)
    (hall : ∀ i < L.outLen K, ∃ rnd < k, ∃ pid < L.grid, ∃ p ∈ L.parts A m r rnd pid K, ∃ e ∈ p.out, e.1 = i)
    {order : List (ℕ × B)} (horder : order.Perm (L.outputs A m r k K)) (init : ℕ → B) {i : ℕ}
    (hi : i < L.outLen K) : writeAll order init i = L.result A i K := by
  refine writeAll_eq ?_ ?_ init
  · rintro e he rfl
    rw [horder.mem_iff, outputs] at he
    simp only [List.mem_flatMap, List.mem_range] at he
    obtain ⟨rnd, hrnd, pid, hpid, p, hp, he⟩ := he
    exact hval rnd hrnd pid hpid p hp e he
  · obtain ⟨rnd, hrnd, pid, hpid, p, hp, e, he, hi⟩ := hall i hi
    refine ⟨e, ?_, hi⟩
    rw [horder.mem_iff, outputs]
    simp only [List.mem_flatMap, List.mem_range]
    exact ⟨rnd, hrnd, pid, hpid, p, hp, he⟩

/-! ## Partials -/

/-- A rank stores its partial where the mask is on. -/
lemma harPartial_store (hgrid : 0 < L.grid) {oneShot : Bool} {r rnd o : ℕ} (ho : o < L.rn rnd)
    (hmask : oneShot ∨ L.Others 8 rnd r o) :
    ∃ pid < L.grid, (L.dataAt (L.par rnd) r o, Word.b16 (L.x r (L.base rnd + o))) ∈
      (L.harPartial oneShot r rnd pid : Part B Q S).stores := by
  obtain ⟨pid, hpid, s, hs, hlo, hhi, _⟩ := exists_mem_loop hgrid (Nat.zero_le o) ho
  refine ⟨pid, hpid, List.mem_flatMap.mpr ⟨s, hs, List.mem_map.mpr ⟨o, ?_, rfl⟩⟩⟩
  rw [List.mem_filter, mem_lanes_iff, decide_eq_true_eq]
  exact ⟨⟨hlo, hhi⟩, ho, hmask⟩

omit [NeZero G] in
/-- If the partials of the others are visible, a rank computes the sum of all. -/
lemma harSum_eq {v : View B Q S} {r rnd o : ℕ}
    (h : ∀ j < L.world, j ≠ r → v.b16 (L.dataAt (L.par rnd) j o).addr = L.x j (L.base rnd + o)) :
    L.harSum A v r rnd o = L.total A (L.base rnd + o) := by
  refine List.foldl_ext _ _ _ fun acc j hj => ?_
  by_cases hjr : j = r
  · rw [if_pos hjr, hjr]
  · rw [if_neg hjr, h j (List.mem_range.mp hj) hjr]

lemma harSum_visible (h : L.Sized) {m : Memory B Q S} {k : ℕ} {K : Kernel}
    (hm : L.FirstVisible A m k K) (oneShot : Bool) (hK : ∀ r rnd pid, L.part1 A r rnd pid K = L.harPartial oneShot r rnd pid)
    {r rnd o : ℕ} (hr : r < L.world) (hrnd : rnd < k) (ho : o < L.rn rnd)
    (hmask : oneShot ∨ o / L.ch 8 rnd = r) :
    L.harSum A (m.first r rnd) r rnd o = L.total A (L.base rnd + o) := by
  refine harSum_eq fun j hj hjr => ?_
  have hmask' : oneShot ∨ L.Others 8 rnd j o := by
    refine hmask.imp id fun howner => ?_
    rw [h.others_iff (by decide) ho, howner]
    exact Ne.symm hjr
  obtain ⟨pid, hpid, hstore⟩ := harPartial_store (Q := Q) (S := S) h.grid ho hmask'
  rw [← hK] at hstore
  exact hm r hr j hj (Ne.symm hjr) rnd hrnd pid hpid _ hstore

/-- The loads of the partials are inside the slots of the others. -/
lemma harLoads_inside {r rnd o : ℕ} (ho : o < L.rn rnd) :
    ∀ a ∈ L.harLoads r rnd o, a.slot.rank < L.world ∧ L.Inside a := by
  intro a ha
  obtain ⟨j, hj, rfl⟩ := List.mem_map.mp ha
  exact ⟨List.mem_range.mp (List.mem_filter.mp hj).1, inside_dataAt _ _ (lt_round ho)⟩

lemma harPartial_inSlots {oneShot : Bool} {r rnd pid : ℕ} :
    Part.InSlots L r (L.harPartial oneShot r rnd pid : Part B Q S) where
  stores e he := by
    obtain ⟨s, _, he⟩ := List.mem_flatMap.mp he
    obtain ⟨o, ho, rfl⟩ := List.mem_map.mp he
    have hmask := of_decide_eq_true (List.mem_filter.mp ho).2
    exact ⟨rfl, inside_dataAt _ _ (lt_round hmask.1)⟩
  loads _ ha := absurd ha List.not_mem_nil

lemma idle_inSlots (r : ℕ) : Part.InSlots L r (idle : Part B Q S) where
  stores _ he := absurd he List.not_mem_nil
  loads _ ha := absurd ha List.not_mem_nil

/-! ## The slots behind the barriers -/

/-- What the 16-bit kernels leave in the slots: the partials, and the rounded sums. -/
def memory16 (A : Arith B F Q S G) (L : Launch B) : Memory B Q S where
  first _ rnd :=
    { b16 := fun a =>
        let c := cell flagBytes 2 L.round a
        L.x (c.1 - L.par rnd * L.world) (L.base rnd + c.2)
      i8 := fun _ => A.otherQ
      f32 := fun _ => A.otherS }
  second _ rnd :=
    { b16 := fun a =>
        let c := cell (flagBytes + L.dataBytes) 2 L.rch a
        A.round (L.total A (L.base rnd + (L.lo 8 rnd (c.1 - L.par rnd * L.world) + c.2)))
      i8 := fun _ => A.otherQ
      f32 := fun _ => A.otherS }

omit [NeZero G] in
lemma memory16_first {i rnd j o : ℕ} (ho : o < L.rn rnd) :
    ((memory16 A L).first i rnd).Shows (L.dataAt (L.par rnd) j o) (.b16 (L.x j (L.base rnd + o))) := by
  change L.x _ _ = _
  rw [cell_dataAt _ _ (lt_round ho), Nat.add_sub_cancel_left]

omit [NeZero G] in
lemma memory16_second {i rnd j o : ℕ} (ho : o < L.rch) : ((memory16 A L).second i rnd).Shows
    (L.redAt (L.par rnd) j o) (.b16 (A.round (L.total A (L.base rnd + (L.lo 8 rnd j + o))))) := by
  change A.round (L.total A _) = _
  rw [cell_redAt _ _ ho, Nat.add_sub_cancel_left]

omit [NeZero G] in
lemma memory16_harPartial {oneShot : Bool} {i j rnd pid : ℕ} :
    ∀ e ∈ (L.harPartial oneShot j rnd pid : Part B Q S).stores, ((memory16 A L).first i rnd).Shows e.1 e.2 := by
  intro e he
  obtain ⟨s, _, he⟩ := List.mem_flatMap.mp he
  obtain ⟨o, ho, rfl⟩ := List.mem_map.mp he
  exact memory16_first (of_decide_eq_true (List.mem_filter.mp ho).2).1

/-! ## One-shot -/

lemma visible_oneShot (k : ℕ) : L.Visible A (memory16 A L) k .oneShot where
  first _ _ _ _ _ _ _ _ _ := memory16_harPartial
  second _ _ _ _ _ _ _ _ _ _ he := absurd he List.not_mem_nil

/-- The one-shot all-reduce. -/
lemma correct_oneShot (h : L.Sized) : L.Correct A .oneShot := by
  have hrounds := nrounds_eq h.round
  refine ⟨by rw [hrounds]; rfl, fun k _ => ⟨_, visible_oneShot k⟩, ?_, ?_⟩
  · intro k _ m r _ rnd _ pid _ p hp
    rcases List.mem_cons.mp hp with rfl | hp
    · exact harPartial_inSlots
    rcases List.mem_cons.mp hp with rfl | hp
    · refine ⟨fun _ he => absurd he List.not_mem_nil, fun a ha => ?_⟩
      obtain ⟨o, ho, ha⟩ := List.mem_flatMap.mp ha
      obtain ⟨s, _, _, _, ho⟩ := mem_loop_iff.mp ho
      exact harLoads_inside ho a ha
    · rw [List.mem_singleton.mp hp]
      exact idle_inSlots r
  · intro k hk m hm r hr order horder init i hi
    rw [hrounds, Option.mem_some_iff] at hk
    subst hk
    refine out_of_parts ?_ ?_ horder init hi
    · intro rnd hrnd pid _ p hp e he
      rcases List.mem_cons.mp hp with rfl | hp
      · exact absurd he List.not_mem_nil
      rcases List.mem_cons.mp hp with rfl | hp
      · obtain ⟨o, ho, rfl⟩ := List.mem_map.mp he
        obtain ⟨s, _, _, _, ho⟩ := mem_loop_iff.mp ho
        exact congrArg A.round
          (harSum_visible h hm.first true (fun _ _ _ => rfl) hr hrnd ho (Or.inl rfl))
      · rw [List.mem_singleton.mp hp] at he
        exact absurd he List.not_mem_nil
    · intro i hi
      obtain ⟨hrnd, heq, ho⟩ := exists_round h.round hi
      obtain ⟨pid, hpid, hloop⟩ := exists_mem_loop h.grid (Nat.zero_le _) ho
      refine ⟨_, hrnd, pid, hpid, _, List.mem_cons_of_mem _ List.mem_cons_self, _,
        List.mem_map_of_mem (mem_loop_iff.mpr hloop), heq⟩

/-! ## Two-shot -/

omit [NeZero G] in
/-- The own chunk is stored in the reduced slot. -/
lemma harReduce_store (hgrid : 0 < L.grid) (v : View B Q S) {r rnd o : ℕ} (hlo : L.lo 8 rnd r ≤ o)
    (hhi : o < L.hi 8 rnd r) : ∃ pid < L.grid,
      (L.redAt (L.par rnd) r (o - L.lo 8 rnd r), Word.b16 (A.round (L.harSum A v r rnd o))) ∈
        (L.harReduce A v r rnd pid).stores := by
  obtain ⟨pid, hpid, hloop⟩ := exists_mem_loop hgrid hlo hhi
  exact ⟨pid, hpid, List.mem_map_of_mem (f := fun o => (L.redAt (L.par rnd) r (o - L.lo 8 rnd r),
    Word.b16 (A.round (L.harSum A v r rnd o)))) (mem_loop_iff.mpr hloop)⟩

/-- The offsets of a block in the chunks of the others. -/
lemma mem_others_iff {r pid : ℕ} {lo hi : ℕ → ℕ} {e : ℕ × ℕ} :
    (e ∈ ((List.range L.world).filter (· ≠ r)).flatMap fun j => (L.tiles pid (lo j) (hi j)).flatMap fun s =>
      ((lanes s).filter fun o => o < hi j).map fun o => (j, o)) ↔
      e.1 < L.world ∧ e.1 ≠ r ∧ ∃ s ∈ L.tiles pid (lo e.1) (hi e.1), s ≤ e.2 ∧ e.2 < s + block ∧ e.2 < hi e.1 := by
  simp only [List.mem_flatMap, List.mem_filter, List.mem_range, decide_eq_true_eq, List.mem_map,
    mem_lanes_iff]
  constructor
  · rintro ⟨j, ⟨hj, hjr⟩, s, hs, o, ⟨⟨hlo, hhi⟩, ho⟩, rfl⟩
    exact ⟨hj, hjr, s, hs, hlo, hhi, ho⟩
  · rintro ⟨hj, hjr, s, hs, hlo, hhi, ho⟩
    exact ⟨e.1, ⟨hj, hjr⟩, s, hs, e.2, ⟨⟨hlo, hhi⟩, ho⟩, rfl⟩

/-- The owner of a chunk computes the sums of its elements. -/
lemma harSum_chunk (h : L.Sized) {m : Memory B Q S} {k : ℕ} (hm : L.FirstVisible A m k .twoShot)
    {j rnd o : ℕ} (hj : j < L.world) (hrnd : rnd < k) (hlo : L.lo 8 rnd j ≤ o) (hhi : o < L.hi 8 rnd j) :
    L.harSum A (m.first j rnd) j rnd o = L.total A (L.base rnd + o) := by
  have hunit : 8 ∣ block := by decide
  have ho := Sized.lt_rn_of_hi hhi
  exact harSum_visible h hm false (fun _ _ _ => rfl) hj hrnd ho
    (Or.inr ((h.mem_chunk_iff hunit ho).mp ⟨hlo, hhi⟩))

lemma visible_twoShot (h : L.Sized) (k : ℕ) : L.Visible A (memory16 A L) k .twoShot where
  first _ _ _ _ _ _ _ _ _ := memory16_harPartial
  second i _ j hj _ rnd hrnd pid _ e he := by
    have hunit : 8 ∣ block := by decide
    obtain ⟨o, ho, rfl⟩ := List.mem_map.mp he
    obtain ⟨s, hs, hlo, _, hhi⟩ := mem_loop_iff.mp ho
    have hle := (le_of_mem_tiles hs h.grid).1.trans hlo
    have hshow : ((memory16 A L).second i rnd).Shows (L.redAt (L.par rnd) j (o - L.lo 8 rnd j))
        (.b16 (A.round (L.total A (L.base rnd + (L.lo 8 rnd j + (o - L.lo 8 rnd j)))))) :=
      memory16_second (h.sub_lo_lt hunit hle hhi)
    rw [Nat.add_sub_cancel' hle] at hshow
    rw [harSum_chunk (k := k) h (fun _ _ _ _ _ _ _ _ _ => memory16_harPartial) hj hrnd hle hhi]
    exact hshow

/-- The two-shot all-reduce. -/
lemma correct_twoShot (h : L.Sized) : L.Correct A .twoShot := by
  have hrounds := nrounds_eq h.round
  have hunit : 8 ∣ block := by decide
  refine ⟨by rw [hrounds]; rfl, fun k _ => ⟨_, visible_twoShot h k⟩, ?_, ?_⟩
  · intro k _ m r _ rnd _ pid _ p hp
    rcases List.mem_cons.mp hp with rfl | hp
    · exact harPartial_inSlots
    rcases List.mem_cons.mp hp with rfl | hp
    · refine ⟨fun e he => ?_, fun a ha => ?_⟩
      · obtain ⟨o, ho, rfl⟩ := List.mem_map.mp he
        obtain ⟨s, hs, hlo, _, hhi⟩ := mem_loop_iff.mp ho
        have hle := (le_of_mem_tiles hs h.grid).1.trans hlo
        exact ⟨rfl, inside_redAt _ _ (h.sub_lo_lt hunit hle hhi)⟩
      · obtain ⟨o, ho, ha⟩ := List.mem_flatMap.mp ha
        obtain ⟨s, _, _, _, hhi⟩ := mem_loop_iff.mp ho
        exact harLoads_inside (Sized.lt_rn_of_hi hhi) a ha
    · rw [List.mem_singleton.mp hp]
      refine ⟨fun _ he => absurd he List.not_mem_nil, fun a ha => ?_⟩
      obtain ⟨e, he, rfl⟩ := List.mem_map.mp ha
      obtain ⟨hj, _, s, hs, hlo, _, hhi⟩ := mem_others_iff.mp he
      have hle := (le_of_mem_tiles hs h.grid).1.trans hlo
      exact ⟨hj, inside_redAt _ _ (h.sub_lo_lt hunit hle hhi)⟩
  · intro k hk m hm r hr order horder init i hi
    rw [hrounds, Option.mem_some_iff] at hk
    subst hk
    have howner (j rnd o : ℕ) (hj : j < L.world) (hrnd : rnd < cdiv L.n L.round) (hlo : L.lo 8 rnd j ≤ o)
        (hhi : o < L.hi 8 rnd j) :
        A.round (L.harSum A (m.first j rnd) j rnd o) = A.round (L.total A (L.base rnd + o)) :=
      congrArg A.round (harSum_chunk h hm.first hj hrnd hlo hhi)
    refine out_of_parts ?_ ?_ horder init hi
    · intro rnd hrnd pid _ p hp e he
      rcases List.mem_cons.mp hp with rfl | hp
      · exact absurd he List.not_mem_nil
      rcases List.mem_cons.mp hp with rfl | hp
      · obtain ⟨o, ho, rfl⟩ := List.mem_map.mp he
        obtain ⟨s, hs, hlo, _, hhi⟩ := mem_loop_iff.mp ho
        exact howner r rnd o hr hrnd ((le_of_mem_tiles hs h.grid).1.trans hlo) hhi
      · rw [List.mem_singleton.mp hp] at he
        obtain ⟨e, hmem, rfl⟩ := List.mem_map.mp he
        obtain ⟨hj, hjr, s, hs, hlo, _, hhi⟩ := mem_others_iff.mp hmem
        have hle := (le_of_mem_tiles hs h.grid).1.trans hlo
        obtain ⟨pid', hpid', hstore⟩ := harReduce_store (A := A) h.grid (m.first e.1 rnd) hle hhi
        have hshow := hm.second r hr e.1 hj (Ne.symm hjr) rnd hrnd pid' hpid' _ hstore
        exact Eq.trans hshow (howner e.1 rnd e.2 hj hrnd hle hhi)
    · intro i hi
      obtain ⟨hrnd, heq, ho⟩ := exists_round h.round hi
      obtain ⟨hlo, hhi⟩ := (h.mem_chunk_iff hunit ho).mpr rfl
      obtain ⟨pid, hpid, hloop⟩ := exists_mem_loop h.grid hlo hhi
      by_cases hr' : i % L.round / L.ch 8 (i / L.round) = r
      · rw [hr'] at hloop
        exact ⟨_, hrnd, pid, hpid, _, List.mem_cons_of_mem _ List.mem_cons_self, _,
          List.mem_map_of_mem (mem_loop_iff.mpr hloop), heq⟩
      · refine ⟨_, hrnd, pid, hpid, _, List.mem_cons_of_mem _ (List.mem_cons_of_mem _ List.mem_cons_self),
          _, List.mem_map_of_mem ((mem_others_iff (e := (_, i % L.round))).mpr ⟨?_, hr', hloop⟩), heq⟩
        exact h.owner_lt hunit ho

/-! ## All-gather -/

lemma visible_gather (k : ℕ) : L.Visible A (memory16 A L) k .gather where
  first _ _ _ _ _ _ _ _ _ e he := by
    obtain ⟨o, ho, rfl⟩ := List.mem_map.mp he
    obtain ⟨_, _, _, _, ho⟩ := mem_loop_iff.mp ho
    exact memory16_first ho
  second _ _ _ _ _ _ _ _ _ _ he := absurd he List.not_mem_nil

/-- The all-gather. -/
lemma correct_gather (h : L.Sized) : L.Correct A .gather := by
  have hrounds := nrounds_eq h.round
  refine ⟨by rw [hrounds]; rfl, fun k _ => ⟨_, visible_gather k⟩, ?_, ?_⟩
  · intro k _ m r _ rnd _ pid _ p hp
    rcases List.mem_cons.mp hp with rfl | hp
    · refine ⟨fun e he => ?_, fun _ ha => absurd ha List.not_mem_nil⟩
      obtain ⟨o, ho, rfl⟩ := List.mem_map.mp he
      obtain ⟨s, _, _, _, ho⟩ := mem_loop_iff.mp ho
      exact ⟨rfl, inside_dataAt _ _ (lt_round ho)⟩
    rcases List.mem_cons.mp hp with rfl | hp
    · refine ⟨fun _ he => absurd he List.not_mem_nil, fun a ha => ?_⟩
      obtain ⟨e, he, rfl⟩ := List.mem_map.mp ha
      obtain ⟨hj, _, s, _, _, _, ho⟩ := mem_others_iff.mp he
      exact ⟨hj, inside_dataAt _ _ (lt_round ho)⟩
    · rw [List.mem_singleton.mp hp]
      exact idle_inSlots r
  · intro k hk m hm r hr order horder init i hi
    rw [hrounds, Option.mem_some_iff] at hk
    subst hk
    have hindex (j rnd o : ℕ) (ho : o < L.rn rnd) :
        L.result A (j * L.n + L.base rnd + o) .gather = L.x j (L.base rnd + o) := by
      have hlt := lt_of_rn ho
      have hpos := Nat.zero_lt_of_lt hlt
      rw [result, Nat.add_assoc, Nat.mul_comm j, Nat.mul_add_div hpos, Nat.mul_add_mod,
        Nat.div_eq_of_lt hlt, Nat.mod_eq_of_lt hlt, Nat.add_zero]
    refine out_of_parts ?_ ?_ horder init hi
    · intro rnd hrnd pid _ p hp e he
      rcases List.mem_cons.mp hp with rfl | hp
      · obtain ⟨o, ho, rfl⟩ := List.mem_map.mp he
        obtain ⟨s, _, _, _, ho⟩ := mem_loop_iff.mp ho
        exact (hindex r rnd o ho).symm
      rcases List.mem_cons.mp hp with rfl | hp
      · obtain ⟨e, hmem, rfl⟩ := List.mem_map.mp he
        obtain ⟨hj, hjr, s, _, _, _, ho⟩ := mem_others_iff.mp hmem
        obtain ⟨pid', hpid', hloop⟩ := exists_mem_loop h.grid (Nat.zero_le e.2) ho
        have hstore := List.mem_map_of_mem (f := fun o => (L.dataAt (L.par rnd) e.1 o,
          (Word.b16 (L.x e.1 (L.base rnd + o)) : Word B Q S))) (mem_loop_iff.mpr hloop)
        have hshow := hm.first r hr e.1 hj (Ne.symm hjr) rnd hrnd pid' hpid' _ hstore
        exact Eq.trans hshow (hindex e.1 rnd e.2 ho).symm
      · rw [List.mem_singleton.mp hp] at he
        exact absurd he List.not_mem_nil
    · intro i hi
      have hn : 0 < L.n := Nat.pos_of_ne_zero fun hn => by
        rw [outLen, hn, Nat.mul_zero] at hi
        exact Nat.not_lt_zero i hi
      have hj : i / L.n < L.world := (Nat.div_lt_iff_lt_mul hn).mpr hi
      obtain ⟨hrnd, heq, ho⟩ := exists_round h.round (Nat.mod_lt i hn)
      obtain ⟨pid, hpid, hloop⟩ := exists_mem_loop h.grid (Nat.zero_le _) ho
      have hi' : i / L.n * L.n + L.base (i % L.n / L.round) + i % L.n % L.round = i := by
        rw [Nat.add_assoc, heq, Nat.mul_comm]
        exact Nat.div_add_mod i L.n
      by_cases hr' : i / L.n = r
      · rw [hr'] at hi'
        exact ⟨_, hrnd, pid, hpid, _, List.mem_cons_self, _,
          List.mem_map_of_mem (mem_loop_iff.mpr hloop), hi'⟩
      · exact ⟨_, hrnd, pid, hpid, _, List.mem_cons_of_mem _ List.mem_cons_self, _,
          List.mem_map_of_mem ((mem_others_iff (e := (i / L.n, i % L.n % L.round))).mpr ⟨hj, hr', hloop⟩), hi'⟩

end Launch
end SuffixHybrid.HostAr
