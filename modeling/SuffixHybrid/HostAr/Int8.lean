import SuffixHybrid.HostAr.Sum

/-!
# The int8 kernel

The chunks and the rounds are made of whole groups, so a group is on one side of every mask, and the codes
and the scale that a tile gives for it are those of the group alone. The owner of a chunk keeps for its
output what it stores for the others, so all ranks get the same elements.

The scales need a word for every group behind the codes of the slot. There is room for a quarter of the
round's elements, which is enough for groups of four and more.
-/

namespace SuffixHybrid.HostAr
open Lib

section
variable {B F Q S : Type} {G : ℕ} [NeZero G] {A : Arith B F Q S G}

/-! ## Groups -/

/-- The elements of a group are in the same multiple of its size. -/
lemma group_div {c : ℕ} (hc : G ∣ c) (o : ℕ) (k : Fin G) : (o / G * G + k) / c = o / c := by
  obtain ⟨q, rfl⟩ := hc
  rw [← Nat.div_div_eq_div_mul, ← Nat.div_div_eq_div_mul, Nat.mul_comm, Nat.mul_add_div (NeZero.pos G),
    Nat.div_eq_of_lt k.isLt, Nat.add_zero]

lemma group_lt_iff {c : ℕ} (hc : G ∣ c) (o : ℕ) (k : Fin G) : o / G * G + k < c ↔ o < c := by
  obtain ⟨q, rfl⟩ := hc
  have hdiv : (o / G * G + k) / G = o / G := group_div (Nat.dvd_refl G) o k
  rw [Nat.mul_comm G, ← Nat.div_lt_iff_lt_mul (NeZero.pos G), hdiv, Nat.div_lt_iff_lt_mul (NeZero.pos G)]

/-- A tile starts with a group. -/
lemma lane_group {s o : ℕ} (hs : G ∣ s) (hle : s ≤ o) :
    s + (o - s) / G * G = o / G * G ∧ s / G + (o - s) / G = o / G ∧ Fin.ofNat G (o - s) = Fin.ofNat G o := by
  obtain ⟨q, rfl⟩ := hs
  obtain ⟨d, rfl⟩ := Nat.exists_eq_add_of_le hle
  have hpos := NeZero.pos G
  rw [Nat.add_sub_cancel_left, Nat.mul_div_cancel_left _ hpos, Nat.mul_add_div hpos]
  refine ⟨by rw [Nat.add_mul, Nat.mul_comm G], rfl, Fin.ext ?_⟩
  rw [Fin.val_ofNat, Fin.val_ofNat, Nat.mul_add_mod]

lemma group_sub {s og : ℕ} (hs : G ∣ s) : (og * G - s) / G = og - s / G := by
  obtain ⟨q, rfl⟩ := hs
  rw [Nat.mul_comm og, ← Nat.mul_sub, Nat.mul_div_cancel_left _ (NeZero.pos G),
    Nat.mul_div_cancel_left _ (NeZero.pos G)]

/-- The code of a lane is the one of its group. -/
lemma quant8_fst {v : ℕ → F} {s o : ℕ} (hs : G ∣ s) (hle : s ≤ o) {w : Fin G → F}
    (hw : ∀ k : Fin G, v ((o - s) / G * G + k) = w k) : (quant8 A v).1 (o - s) = (A.quant w).1 (Fin.ofNat G o) := by
  change (A.quant fun k => v ((o - s) / G * G + k)).1 (Fin.ofNat G (o - s)) = _
  rw [funext hw, (lane_group hs hle).2.2]

lemma quant8_snd {v : ℕ → F} {ag : ℕ} {w : Fin G → F} (hw : ∀ k : Fin G, v (ag * G + k) = w k) :
    (quant8 A v).2 ag = (A.quant w).2 := by
  change (A.quant fun k => v (ag * G + k)).2 = _
  rw [funext hw]

/-- The code and the scale that a rank stores of its partial. -/
def sentCode (A : Arith B F Q S G) (L : Launch B) (j rnd o : ℕ) : Q :=
  (A.quant fun k => A.toF (L.x j (L.base rnd + (o / G * G + k)))).1 (Fin.ofNat G o)

def sentScale (A : Arith B F Q S G) (L : Launch B) (j rnd og : ℕ) : S :=
  (A.quant fun k => A.toF (L.x j (L.base rnd + (og * G + k)))).2

/-- The code and the scale that an owner stores of the sum. -/
def sumCode (A : Arith B F Q S G) (L : Launch B) (r rnd o : ℕ) : Q :=
  (A.quant fun k => L.q8Total A r rnd (o / G * G + k)).1 (Fin.ofNat G o)

def sumScale (A : Arith B F Q S G) (L : Launch B) (r rnd og : ℕ) : S :=
  (A.quant fun k => L.q8Total A r rnd (og * G + k)).2

namespace Launch
variable {L : Launch B}

omit [NeZero G] in
lemma mem_groups_iff {s og : ℕ} : og ∈ groups G s ↔ s / G ≤ og ∧ og < s / G + block / G := by
  rw [groups, List.mem_map]
  constructor
  · rintro ⟨ag, hag, rfl⟩
    rw [List.mem_range] at hag
    omega
  · rintro ⟨hlo, hhi⟩
    exact ⟨og - s / G, List.mem_range.mpr (by omega), by omega⟩

/-- The tile of the first element of a group has the group. -/
lemma mem_groups_of_tile (hG : G ∣ block) {s og : ℕ} (hs : G ∣ s) (hlo : s ≤ og * G) (hhi : og * G < s + block) :
    og ∈ groups G s := by
  obtain ⟨q, rfl⟩ := hs
  obtain ⟨b, hb⟩ := hG
  have hpos := NeZero.pos G
  rw [mem_groups_iff, hb, Nat.mul_div_cancel_left _ hpos, Nat.mul_div_cancel_left _ hpos]
  rw [hb, ← Nat.mul_add, Nat.mul_comm og] at hhi
  rw [Nat.mul_comm og] at hlo
  exact ⟨Nat.le_of_mul_le_mul_left hlo hpos, Nat.lt_of_mul_lt_mul_left hhi⟩

omit [NeZero G] in
/-- The tiles of a range that starts with a group start with one. -/
lemma dvd_of_mem_tiles (hG : G ∣ block) (hgrid : 0 < L.grid) {pid start stop s : ℕ} (hstart : G ∣ start)
    (hs : s ∈ L.tiles pid start stop) : G ∣ s := by
  obtain ⟨hle, _, hdvd⟩ := le_of_mem_tiles hs hgrid
  rw [← Nat.sub_add_cancel hle]
  exact Nat.dvd_add (Nat.dvd_trans hG hdvd) hstart

variable (h : L.Sized) (hG : G ∣ block) (hn : G ∣ L.n)
include h hG hn

/-- A group is on one side of the mask of phase 1. -/
lemma others_group {r rnd : ℕ} (o : ℕ) (k : Fin G) :
    L.Others G rnd r (o / G * G + k) ↔ L.Others G rnd r o := by
  have hdvd : G ∣ L.rn rnd := h.unit_dvd_rn hG hn
  have hrn := group_lt_iff hdvd o k
  have hch : G ∣ L.ch G rnd := Nat.dvd_mul_left _ _
  by_cases ho : o < L.rn rnd
  · rw [h.others_iff hG (hrn.mpr ho), h.others_iff hG ho, group_div hch]
  · exact ⟨fun hoth => absurd (hrn.mp hoth.1) ho, fun hoth => absurd hoth.1 ho⟩

/-- A group is in one chunk. -/
lemma chunk_group {r rnd o : ℕ} (hlo : L.lo G rnd r ≤ o) (hhi : o < L.hi G rnd r) (k : Fin G) :
    L.lo G rnd r ≤ o / G * G + k ∧ o / G * G + k < L.hi G rnd r := by
  have ho := Sized.lt_rn_of_hi hhi
  have hch : G ∣ L.ch G rnd := Nat.dvd_mul_left _ _
  have hdvd : G ∣ L.rn rnd := h.unit_dvd_rn hG hn
  rw [h.mem_chunk_iff hG ((group_lt_iff hdvd o k).mpr ho), group_div hch, ← h.mem_chunk_iff hG ho]
  exact ⟨hlo, hhi⟩

/-! ## Phase 1 -/

/-- The codes and the scales of a partial, where some other rank reads them. -/
lemma q8Partial_code {r rnd s o : ℕ} (hs : G ∣ s) (hle : s ≤ o) (ho : L.Others G rnd r o) :
    (quant8 A (L.q8Partial A r rnd s)).1 (o - s) = sentCode A L r rnd o := by
  rw [sentCode, quant8_fst hs hle fun k => ?_]
  rw [q8Partial, ← Nat.add_assoc, (lane_group hs hle).1, if_pos ((others_group h hG hn o k).mpr ho)]

lemma q8Partial_scale {r rnd s og : ℕ} (hs : G ∣ s) (hle : s / G ≤ og) (ho : L.Others G rnd r (og * G)) :
    (quant8 A (L.q8Partial A r rnd s)).2 (og - s / G) = sentScale A L r rnd og := by
  have hog : s + (og - s / G) * G = og * G := by
    have hmul := Nat.mul_le_mul_right G hle
    rw [Nat.div_mul_cancel hs] at hmul
    rw [Nat.sub_mul, Nat.div_mul_cancel hs]
    exact Nat.add_sub_cancel' hmul
  rw [sentScale, quant8_snd fun k => ?_]
  have hgroup := (others_group h hG hn (og * G) k).mpr ho
  rw [Nat.mul_div_cancel _ (NeZero.pos G)] at hgroup
  rw [q8Partial, ← Nat.add_assoc, hog, if_pos hgroup]

/-- A rank stores them. -/
lemma q8Quant_code {r rnd o : ℕ} (ho : L.Others G rnd r o) : ∃ pid < L.grid,
    (L.codeAt (L.par rnd) r o, Word.i8 (sentCode A L r rnd o)) ∈ (L.q8Quant A r rnd pid).stores := by
  obtain ⟨pid, hpid, s, hs, hlo, hhi, _⟩ := exists_mem_loop h.grid (Nat.zero_le o) ho.1
  have hdvd := dvd_of_mem_tiles hG h.grid (Nat.dvd_zero G) hs
  refine ⟨pid, hpid, List.mem_flatMap.mpr ⟨s, hs, List.mem_append_left _ (List.mem_map.mpr ⟨o, ?_, ?_⟩)⟩⟩
  · rw [List.mem_filter, mem_lanes_iff, decide_eq_true_eq]
    exact ⟨⟨hlo, hhi⟩, ho⟩
  · rw [q8Partial_code h hG hn hdvd hlo ho]

lemma q8Quant_scale {r rnd og : ℕ} (ho : L.Others G rnd r (og * G)) : ∃ pid < L.grid,
    (L.scaleAt (L.par rnd) r og, Word.f32 (sentScale A L r rnd og)) ∈ (L.q8Quant A r rnd pid).stores := by
  obtain ⟨pid, hpid, s, hs, hlo, hhi, _⟩ := exists_mem_loop h.grid (Nat.zero_le (og * G)) ho.1
  have hdvd := dvd_of_mem_tiles hG h.grid (Nat.dvd_zero G) hs
  have hmem := mem_groups_of_tile hG hdvd hlo hhi
  refine ⟨pid, hpid, List.mem_flatMap.mpr ⟨s, hs, List.mem_append_right _ (List.mem_map.mpr ⟨og, ?_, ?_⟩)⟩⟩
  · rw [List.mem_filter, decide_eq_true_eq]
    exact ⟨hmem, ho⟩
  · rw [q8Partial_scale h hG hn hdvd (mem_groups_iff.mp hmem).1 ho]

/-! ## Phase 2 -/

/-- If the partials of the others are visible, the owner of a chunk computes the sum. -/
lemma q8Sum_eq {m : Memory B Q S} {k : ℕ} (hm : L.FirstVisible A m k .q8) {r rnd : ℕ} (hr : r < L.world)
    (hrnd : rnd < k) {s lane : ℕ} (hs : G ∣ s) (hlo : L.lo G rnd r ≤ s + lane) (hhi : s + lane < L.hi G rnd r) :
    L.q8Sum A (m.first r rnd) r rnd s lane = L.q8Total A r rnd (s + lane) := by
  have hlane : s / G + lane / G = (s + lane) / G := by
    obtain ⟨q, rfl⟩ := hs
    rw [Nat.mul_div_cancel_left _ (NeZero.pos G), Nat.mul_add_div (NeZero.pos G)]
  refine List.foldl_ext _ _ _ fun acc j hj => ?_
  rw [List.mem_range] at hj
  by_cases hjr : j = r
  · rw [if_pos hjr, if_pos hjr, if_pos hhi, hjr]
  · have hother : L.Others G rnd j (s + lane) := by
      have ho := Sized.lt_rn_of_hi hhi
      rw [h.others_iff hG ho, (h.mem_chunk_iff hG ho).mp ⟨hlo, hhi⟩]
      exact Ne.symm hjr
    have hgroup : L.Others G rnd j ((s + lane) / G * G) :=
      (others_group h hG hn (s + lane) ⟨0, NeZero.pos G⟩).mpr hother
    obtain ⟨pid, hpid, hcode⟩ := q8Quant_code (A := A) h hG hn hother
    obtain ⟨pid', hpid', hscale⟩ := q8Quant_scale (A := A) h hG hn hgroup
    have hcode' := hm r hr j hj (Ne.symm hjr) rnd hrnd pid hpid _ hcode
    have hscale' := hm r hr j hj (Ne.symm hjr) rnd hrnd pid' hpid' _ hscale
    have hhi' : (s + lane) / G * G < L.hi G rnd r := Nat.lt_of_le_of_lt (Nat.div_mul_le_self _ _) hhi
    rw [if_neg hjr, if_neg hjr, q8Other, dequant8, if_pos hhi, hlane, if_pos hhi']
    exact congrArg _ (congrArg₂ A.dequant hcode' hscale')

variable {m : Memory B Q S} {k : ℕ} (hm : L.FirstVisible A m k .q8) {r rnd : ℕ} (hr : r < L.world) (hrnd : rnd < k)
include hm hr hrnd

/-- What the owner quantizes of a group in its chunk. -/
lemma q8Sum_group {s o : ℕ} (hs : G ∣ s) (hle : s ≤ o) (hlo : L.lo G rnd r ≤ o) (hhi : o < L.hi G rnd r)
    (i : Fin G) : L.q8Sum A (m.first r rnd) r rnd s ((o - s) / G * G + i) = L.q8Total A r rnd (o / G * G + i) := by
  have hgroup := chunk_group h hG hn hlo hhi i
  have heq : s + ((o - s) / G * G + i) = o / G * G + i := by rw [← Nat.add_assoc, (lane_group hs hle).1]
  rw [q8Sum_eq h hG hn hm hr hrnd hs (heq ▸ hgroup.1) (heq ▸ hgroup.2), heq]

lemma q8Sum_code {s o : ℕ} (hs : G ∣ s) (hle : s ≤ o) (hlo : L.lo G rnd r ≤ o) (hhi : o < L.hi G rnd r) :
    (quant8 A (L.q8Sum A (m.first r rnd) r rnd s)).1 (o - s) = sumCode A L r rnd o :=
  quant8_fst hs hle (q8Sum_group h hG hn hm hr hrnd hs hle hlo hhi)

lemma q8Sum_scale {s o : ℕ} (hs : G ∣ s) (hle : s ≤ o) (hlo : L.lo G rnd r ≤ o) (hhi : o < L.hi G rnd r) :
    (quant8 A (L.q8Sum A (m.first r rnd) r rnd s)).2 ((o - s) / G) = sumScale A L r rnd (o / G) :=
  quant8_snd (q8Sum_group h hG hn hm hr hrnd hs hle hlo hhi)

/-- The owner stores the codes and the scales of the sum. -/
lemma q8Reduce_code {o : ℕ} (hlo : L.lo G rnd r ≤ o) (hhi : o < L.hi G rnd r) : ∃ pid < L.grid,
    (L.redCodeAt (L.par rnd) r (o - L.lo G rnd r), Word.i8 (sumCode A L r rnd o)) ∈
      (L.q8Reduce A (m.first r rnd) r rnd pid).stores := by
  obtain ⟨pid, hpid, s, hs, hle, hlt, _⟩ := exists_mem_loop h.grid hlo hhi
  have hdvd := dvd_of_mem_tiles hG h.grid (Sized.unit_dvd_lo r) hs
  refine ⟨pid, hpid, List.mem_flatMap.mpr ⟨s, hs, List.mem_append_left _ (List.mem_map.mpr ⟨o, ?_, ?_⟩)⟩⟩
  · rw [List.mem_filter, mem_lanes_iff, decide_eq_true_eq]
    exact ⟨⟨hle, hlt⟩, hhi⟩
  · rw [q8Sum_code h hG hn hm hr hrnd hdvd hle hlo hhi]

lemma q8Reduce_scale {o : ℕ} (hlo : L.lo G rnd r ≤ o) (hhi : o < L.hi G rnd r) : ∃ pid < L.grid,
    (L.redScaleAt (L.par rnd) r (o / G - L.lo G rnd r / G), Word.f32 (sumScale A L r rnd (o / G))) ∈
      (L.q8Reduce A (m.first r rnd) r rnd pid).stores := by
  obtain ⟨hglo, hghi⟩ := chunk_group h hG hn hlo hhi ⟨0, NeZero.pos G⟩
  rw [Nat.add_zero] at hglo hghi
  obtain ⟨pid, hpid, s, hs, hle, hlt, _⟩ := exists_mem_loop h.grid hglo hghi
  have hdvd := dvd_of_mem_tiles hG h.grid (Sized.unit_dvd_lo r) hs
  have hmem := mem_groups_of_tile hG hdvd hle hlt
  refine ⟨pid, hpid, List.mem_flatMap.mpr ⟨s, hs, List.mem_append_right _ (List.mem_map.mpr ⟨o / G, ?_, ?_⟩)⟩⟩
  · rw [List.mem_filter, decide_eq_true_eq]
    exact ⟨hmem, hghi⟩
  · have hscale := q8Sum_scale h hG hn hm hr hrnd hdvd hle hglo hghi
    rw [← group_sub hdvd, hscale, Nat.mul_div_cancel _ (NeZero.pos G)]

/-- The owner's own output. -/
lemma q8Reduce_out {s o : ℕ} (hs : G ∣ s) (hle : s ≤ o) (hlo : L.lo G rnd r ≤ o) (hhi : o < L.hi G rnd r) :
    A.round (dequant8 A (quant8 A (L.q8Sum A (m.first r rnd) r rnd s)).1
      (quant8 A (L.q8Sum A (m.first r rnd) r rnd s)).2 (o - s)) = L.q8Result A rnd o := by
  rw [dequant8, q8Sum_code h hG hn hm hr hrnd hs hle hlo hhi, q8Sum_scale h hG hn hm hr hrnd hs hle hlo hhi,
    q8Result, (h.mem_chunk_iff hG (Sized.lt_rn_of_hi hhi)).mp ⟨hlo, hhi⟩]
  rfl

/-! ## Phase 3 -/

omit hm in
/-- The output of the others: the same codes and scales. -/
lemma q8Gather_out (hm : L.Visible A m k .q8) {j pid s o : ℕ} (hj : j < L.world) (hjr : j ≠ r)
    (hs : s ∈ L.tiles pid (L.lo G rnd j) (L.hi G rnd j)) (hle : s ≤ o) (hhi : o < L.hi G rnd j) :
    A.round (L.q8Reduced A (m.second r rnd) rnd j s (o - s)) = L.q8Result A rnd o := by
  have hlos := (le_of_mem_tiles hs h.grid).1
  have hlo := hlos.trans hle
  have hdvdlo : G ∣ L.lo G rnd j := Sized.unit_dvd_lo j
  have hdvd := dvd_of_mem_tiles hG h.grid hdvdlo hs
  obtain ⟨p, hp, hcode⟩ := q8Reduce_code h hG hn hm.first hj hrnd hlo hhi
  obtain ⟨p', hp', hscale⟩ := q8Reduce_scale h hG hn hm.first hj hrnd hlo hhi
  have hcode' := hm.second r hr j hj (Ne.symm hjr) rnd hrnd p hp _ hcode
  have hscale' := hm.second r hr j hj (Ne.symm hjr) rnd hrnd p' hp' _ hscale
  have hsum : s + (o - s) = o := Nat.add_sub_cancel' hle
  -- both sides count groups from the start of the chunk
  have hgroup : (s - L.lo G rnd j) / G + (o - s) / G = o / G - L.lo G rnd j / G := by
    have hs' := (lane_group hdvdlo hlos).2.1
    have ho' := (lane_group hdvd hle).2.1
    rw [← ho', ← hs', Nat.add_assoc, Nat.add_sub_cancel_left]
  have hmask : ((s - L.lo G rnd j) / G + (o - s) / G) * G < L.hi G rnd j - L.lo G rnd j := by
    have hgo := Nat.div_mul_le_self o G
    have hglo := Nat.div_mul_cancel hdvdlo
    rw [hgroup, Nat.sub_mul, hglo]
    omega
  rw [q8Reduced, dequant8, hsum, if_pos hhi, if_pos hmask, hgroup, q8Result,
    (h.mem_chunk_iff hG (Sized.lt_rn_of_hi hhi)).mp ⟨hlo, hhi⟩]
  exact congrArg A.round (congrArg₂ A.dequant hcode' hscale')

end Launch
end
end SuffixHybrid.HostAr
