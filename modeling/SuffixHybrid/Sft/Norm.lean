import Mathlib.Algebra.Order.BigOperators.Group.Finset
import Mathlib.Tactic.Linarith
import Mathlib.Tactic.Ring
import SuffixHybrid.Lib.Grid
import SuffixHybrid.Lib.Run
import SuffixHybrid.Lib.Scan
import SuffixHybrid.Sft.Worker

/-!
# The norm over all ranks

The flat buffer holds every factor once (`sum_rep`, `sum_shard`), and the shards of a factor make up the whole one
(`sum_glob`). So the norm of `reduce_grads` is that of the whole gradient with the squares of the replicated adapters
counted once for each rank (`normSq_eq`). Where these are zero, or there is one rank, the step on the ranks is that of
the reference (`step_iff`).
-/

namespace SuffixHybrid.SftWorker

open Finset Lib Lora

variable {m : ℕ} {ads : Fin m → LoRA}

/-! ## The flat buffer -/

/-- All factors. -/
def allKeys (m : ℕ) : List (Key m) := (List.finRange m).flatMap fun x => [Factor.A, Factor.B].map fun f => (x, f)

lemma mem_allKeys (key : Key m) : key ∈ allKeys m :=
  List.mem_flatMap.mpr ⟨key.1, List.mem_finRange _, List.mem_map.mpr ⟨key.2, key.2.mem_all, rfl⟩⟩

lemma nodup_allKeys : (allKeys m).Nodup := by
  refine List.nodup_flatMap.mpr ⟨fun x _ => ?_, (List.nodup_finRange m).imp fun {x y} hne key hx hy => ?_⟩
  · exact List.Nodup.map (fun f f' h => (Prod.mk.inj h).2) (by decide)
  · obtain ⟨f, -, rfl⟩ := List.mem_map.mp hx
    obtain ⟨f', -, h⟩ := List.mem_map.mp hy
    exact hne (Prod.mk.inj h).1.symm

lemma keys_eq (ads : Fin m → LoRA) (wantRep : Bool) :
    keys ads wantRep = (allKeys m).filter fun key => reduced ads key == wantRep := by
  rw [allKeys, List.filter_flatMap]
  rfl

lemma mem_keys_iff {key : Key m} {wantRep : Bool} : key ∈ keys ads wantRep ↔ reduced ads key = wantRep := by
  rw [keys_eq, List.mem_filter, beq_iff_eq]
  exact and_iff_right (mem_allKeys key)

lemma nodup_keys (wantRep : Bool) : (keys ads wantRep).Nodup := by
  rw [keys_eq]
  exact nodup_allKeys.filter _

lemma nodup_both : (keys ads true ++ keys ads false).Nodup := by
  refine (nodup_keys true).append (nodup_keys false) fun key htrue hfalse => ?_
  rw [mem_keys_iff] at htrue hfalse
  rw [htrue] at hfalse
  cases hfalse

lemma spans_eq (ads : Fin m → LoRA) :
    spans ads = place (size ads) 0 (keys ads true) ++ place (size ads) (nRep ads) (keys ads false) := by
  rw [spans, place_append, Nat.zero_add, nRep]

lemma start_mem (key : Key m) : (key, start ads key) ∈ spans ads := by
  have hmem : key ∈ keys ads true ++ keys ads false := by
    rw [List.mem_append, mem_keys_iff, mem_keys_iff]
    cases reduced ads key <;> simp
  obtain ⟨o, ho, hspan⟩ := lookup_place (size ads) (a := 0) hmem
  rw [start, spans, ho]
  exact hspan

lemma start_eq {s : Key m × ℕ} (h : s ∈ spans ads) : start ads s.1 = s.2 := by
  rw [start, spans, lookup_of_mem_place nodup_both h]
  rfl

lemma mem_place_true {key : Key m} (h : reduced ads key = true) :
    (key, start ads key) ∈ place (size ads) 0 (keys ads true) := by
  obtain ⟨o, -, ho⟩ := lookup_place (size ads) (a := 0) (mem_keys_iff.mpr h)
  have hspan : (key, o) ∈ spans ads := by
    rw [spans_eq]
    exact List.mem_append_left _ ho
  rwa [start_eq hspan]

lemma mem_place_false {key : Key m} (h : reduced ads key = false) :
    (key, start ads key) ∈ place (size ads) (nRep ads) (keys ads false) := by
  obtain ⟨o, -, ho⟩ := lookup_place (size ads) (a := nRep ads) (mem_keys_iff.mpr h)
  have hspan : (key, o) ∈ spans ads := by
    rw [spans_eq]
    exact List.mem_append_right _ ho
  rwa [start_eq hspan]

/-- The factors with partial gradients come first. -/
lemma lt_nRep {key : Key m} (h : reduced ads key = true) {i : ℕ} (hi : i < size ads key) :
    start ads key + i < nRep ads := by
  have hend : start ads key + size ads key ≤ 0 + nRep ads := (bounds_place (mem_place_true h)).2
  omega

lemma nRep_le {key : Key m} (h : reduced ads key = false) : nRep ads ≤ start ads key :=
  (bounds_place (mem_place_false h)).1

section
variable {M : Type} [AddCommMonoid M]

/-- A sum over one round of the loop. -/
lemma sum_round (ads : Fin m → LoRA) (F : ℕ → M) (a : ℕ) (wantRep : Bool)
    (h : ∀ s ∈ place (size ads) a (keys ads wantRep), s ∈ spans ads) :
    ∑ p ∈ Ico a (a + extent (size ads) (keys ads wantRep)), F p =
      ∑ key with reduced ads key = wantRep, ∑ i ∈ range (size ads key), F (start ads key + i) := by
  have hset : univ.filter (fun key => reduced ads key = wantRep) = (keys ads wantRep).toFinset := by
    ext key
    rw [mem_filter_univ, List.mem_toFinset, mem_keys_iff]
  rw [sum_place, hset, List.sum_toFinset _ (nodup_keys wantRep)]
  nth_rewrite 2 [← map_place (size ads) a (keys ads wantRep)]
  rw [List.map_map]
  refine congrArg List.sum (List.map_congr_left fun s hs => ?_)
  rw [Function.comp_apply, start_eq (h s hs)]

/-- The sum over the replicated slice. -/
lemma sum_rep (F : ℕ → M) : ∑ p ∈ range (nRep ads), F p =
    ∑ key with reduced ads key = true, ∑ i ∈ range (size ads key), F (start ads key + i) := by
  have h := sum_round ads F 0 true fun s hs => by
    rw [spans_eq]
    exact List.mem_append_left _ hs
  rwa [Nat.zero_add, ← range_eq_Ico] at h

/-- The sum over the sharded slice. -/
lemma sum_shard (ads : Fin m → LoRA) (F : ℕ → M) : ∑ p ∈ Ico (nRep ads) (off ads), F p =
    ∑ key with reduced ads key = false, ∑ i ∈ range (size ads key), F (start ads key + i) := by
  have h := sum_round ads F (nRep ads) false fun s hs => by
    rw [spans_eq]
    exact List.mem_append_right _ hs
  rwa [nRep, ← extent_append] at h

end

lemma reduced_whole (world : ℕ) (key : Key m) : reduced (whole ads world) key = false := rfl

lemma nRep_whole (world : ℕ) : nRep (whole ads world) = 0 := by
  have h : keys (whole ads world) true = [] := List.eq_nil_iff_forall_not_mem.mpr fun key hkey => by
    rw [mem_keys_iff, reduced_whole] at hkey
    cases hkey
  rw [nRep, h, extent_nil]

/-- The sum over the whole buffer. -/
lemma sum_whole {M : Type} [AddCommMonoid M] (F : ℕ → M) (world : ℕ) : ∑ p ∈ range (off (whole ads world)), F p =
    ∑ key, ∑ i ∈ range (size (whole ads world) key), F (start (whole ads world) key + i) := by
  have h := sum_shard (whole ads world) F
  rw [nRep_whole, ← range_eq_Ico] at h
  rw [h, filter_true_of_mem fun key _ => reduced_whole world key]

/-! ## Shards -/

/-- A factor that all ranks hold. -/
lemma shared_or (ads : Fin m → LoRA) (key : Key m) :
    (reduced ads key = true ∨ (ads key.1).kind = .rep) ∨ (ads key.1).kind = .row ∧ key.2 = .A ∨
      (ads key.1).kind = .col ∧ key.2 = .B := by
  obtain ⟨x, f⟩ := key
  cases hkind : (ads x).kind <;> cases f <;> simp [reduced, Kind.replicatedFactor, hkind]

/-- It is the whole factor on each. -/
lemma shared_eq {key : Key m} (h : reduced ads key = true ∨ (ads key.1).kind = .rep) (world : ℕ) :
    size (whole ads world) key = size ads key ∧
      ∀ rank i, wholeAt ads world rank key i = start (whole ads world) key + i := by
  obtain ⟨x, f⟩ := key
  cases hkind : (ads x).kind <;> cases f <;>
    simp_all [reduced, Kind.replicatedFactor, size, whole, LoRA.whole, LoRA.numel, wholeAt, LoRA.glob]

lemma div_mod_of_lt {cols col : ℕ} (row : ℕ) (h : col < cols) :
    (cols * row + col) / cols = row ∧ (cols * row + col) % cols = col :=
  ⟨by rw [Nat.mul_add_div (by omega), Nat.div_eq_of_lt h, Nat.add_zero],
    by rw [Nat.mul_add_mod, Nat.mod_eq_of_lt h]⟩

/-- The shards of a factor make up the whole one. -/
lemma sum_glob {M : Type} [AddCommMonoid M] (F : ℕ → M) {key : Key m}
    (h : (ads key.1).kind = .row ∧ key.2 = .A ∨ (ads key.1).kind = .col ∧ key.2 = .B) (world : ℕ) :
    ∑ rank ∈ range world, ∑ i ∈ range (size ads key), F (wholeAt ads world rank key i) =
      ∑ i ∈ range (size (whole ads world) key), F (start (whole ads world) key + i) := by
  obtain ⟨x, f⟩ := key
  obtain ⟨hkind, rfl⟩ | ⟨hkind, rfl⟩ := h
  · have hsize : size (whole ads world) (x, .A) = size ads (x, .A) * world := by
      simp only [size, whole, LoRA.whole, LoRA.numel, hkind, if_true]
      exact Nat.mul_right_comm _ _ _
    have hat (rank i : ℕ) : wholeAt ads world rank (x, .A) i =
        start (whole ads world) (x, .A) + (size ads (x, .A) * rank + i) := by
      simp only [wholeAt, LoRA.glob, hkind, LoRA.cols, size, LoRA.numel]
      rw [Nat.add_mul, Nat.add_assoc, Nat.div_add_mod', Nat.mul_comm rank, Nat.mul_right_comm]
    simp only [hat]
    rw [sum_blocks (fun i => F (start (whole ads world) (x, .A) + i)), hsize]
  · have hsize : size (whole ads world) (x, .B) = (ads x).n * world * (ads x).r := by
      simp only [size, whole, LoRA.whole, LoRA.numel, hkind, if_true]
      exact Nat.mul_comm _ _
    have hlocal : size ads (x, .B) = (ads x).n * (ads x).r := Nat.mul_comm _ _
    rw [hsize, hlocal, ← sum_blocks (fun i => F (start (whole ads world) (x, .B) + i))]
    have hat (rank row : ℕ) {col : ℕ} (hcol : col < (ads x).n) :
        wholeAt ads world rank (x, .B) ((ads x).n * row + col) =
          start (whole ads world) (x, .B) + ((ads x).n * world * row + ((ads x).n * rank + col)) := by
      obtain ⟨hdiv, hmod⟩ := div_mod_of_lt row hcol
      simp only [wholeAt, LoRA.glob, hkind, LoRA.cols, hdiv, hmod]
      rw [Nat.mul_comm row, Nat.mul_comm rank]
    rw [sum_congr rfl fun rank _ => (sum_blocks (fun i => F (wholeAt ads world rank (x, .B) i)) (ads x).n (ads x).r).symm,
      sum_comm]
    refine sum_congr rfl fun row _ => ?_
    rw [← sum_blocks fun i => F (start (whole ads world) (x, .B) + ((ads x).n * world * row + i))]
    exact sum_congr rfl fun rank _ => sum_congr rfl fun col hcol => by rw [hat rank row (mem_range.mp hcol)]

/-- The place is in the whole factor. -/
lemma glob_lt {world rank : ℕ} (hrank : rank < world) {key : Key m} {i : ℕ} (hi : i < size ads key) :
    (ads key.1).glob world rank key.2 i < size (whole ads world) key := by
  obtain ⟨x, f⟩ := key
  obtain hshared | ⟨hkind, hf⟩ | ⟨hkind, hf⟩ := shared_or ads (x, f)
  · obtain ⟨hsize, hat⟩ := shared_eq hshared world
    have hglob := Nat.add_left_cancel (hat rank i)
    rwa [hglob, hsize]
  · obtain rfl : f = .A := hf
    have hi : i < (ads x).k * (ads x).r := hi
    simp only [LoRA.glob, hkind, LoRA.cols, size, whole, LoRA.whole, LoRA.numel, if_true]
    rw [Nat.add_mul, Nat.add_assoc, Nat.div_add_mod', Nat.mul_assoc, Nat.mul_right_comm, Nat.mul_comm _ world]
    exact place_lt hrank hi
  · obtain rfl : f = .B := hf
    have hi : i < (ads x).r * (ads x).n := hi
    have hn : 0 < (ads x).n := Nat.pos_of_ne_zero fun h0 => by
      rw [h0, Nat.mul_zero] at hi
      exact Nat.not_lt_zero i hi
    simp only [LoRA.glob, hkind, LoRA.cols, size, whole, LoRA.whole, LoRA.numel, if_true]
    refine place_lt ((Nat.div_lt_iff_lt_mul hn).mpr hi) ?_
    rw [Nat.mul_comm _ world]
    exact place_lt hrank (Nat.mod_lt i hn)

/-! ## The norm -/

section
variable {K : Type} [Field K] {n : ℕ} {loc : Fin (n + 1) → ℕ → K} {G : ℕ → K}

/-- Behind the sum of the partial gradients every rank has its shard of the whole gradient. -/
lemma Sliced.reduceRep_at (h : Sliced ads loc G) (r : Fin (n + 1)) (key : Key m) {i : ℕ} (hi : i < size ads key) :
    reduceRep ads loc r (start ads key + i) = G (wholeAt ads (n + 1) r key i) := by
  cases hred : reduced ads key with
  | false =>
    have hle := nRep_le hred
    rw [reduceRep, if_neg (by omega), h.exact key hred i hi]
  | true =>
    have hlt := lt_nRep hred hi
    have hall : ∑ q, loc q (start ads key + i) = G (wholeAt ads (n + 1) r key i) := by
      rw [h.summed key hred i hi, (shared_eq (.inl hred) _).2, (shared_eq (.inl hred) _).2]
    rw [reduceRep]
    split_ifs with hmany
    · exact hall
    · obtain rfl : n = 0 := by omega
      rw [← hall, Fin.sum_univ_one, Fin.eq_zero r]

/-- The squares of a whole factor. -/
def squares (ads : Fin m → LoRA) (world : ℕ) (G : ℕ → K) (key : Key m) : K :=
  ∑ i ∈ range (size (whole ads world) key), G (start (whole ads world) key + i) ^ 2

/-- The squares of a factor on all ranks. -/
lemma sum_ranks (G : ℕ → K) {key : Key m} (hred : reduced ads key = false) :
    ∑ r : Fin (n + 1), ∑ i ∈ range (size ads key), G (wholeAt ads (n + 1) r key i) ^ 2 =
      squares ads (n + 1) G key + if (ads key.1).kind = .rep then n * squares ads (n + 1) G key else 0 := by
  rw [Fin.sum_univ_eq_sum_range fun r => ∑ i ∈ range (size ads key), G (wholeAt ads (n + 1) r key i) ^ 2]
  obtain (hred' | hrep) | hsplit := shared_or ads key
  · rw [hred] at hred'
    cases hred'
  · obtain ⟨hsize, hat⟩ := shared_eq (.inr hrep) (n + 1)
    simp only [hat, if_pos hrep, squares, hsize, sum_const, card_range, nsmul_eq_mul]
    push_cast
    ring
  · have hne : (ads key.1).kind ≠ .rep := by
      obtain ⟨hkind, -⟩ | ⟨hkind, -⟩ := hsplit <;> rw [hkind] <;> decide
    rw [sum_glob (fun p => G p ^ 2) hsplit, if_neg hne, add_zero, squares]

/-- The squares of a replicated adapter are counted on every rank. -/
lemma normSq_eq (h : Sliced ads loc G) (r : Fin (n + 1)) : normSq ads loc r =
    ∑ p ∈ range (off (whole ads (n + 1))), G p ^ 2 +
      n * ∑ key with (ads key.1).kind = .rep, squares ads (n + 1) G key := by
  have hlocal (wantRep : Bool) (q : Fin (n + 1)) :
      ∑ key with reduced ads key = wantRep, ∑ i ∈ range (size ads key), reduceRep ads loc q (start ads key + i) ^ 2 =
        ∑ key with reduced ads key = wantRep, ∑ i ∈ range (size ads key), G (wholeAt ads (n + 1) q key i) ^ 2 :=
    sum_congr rfl fun key _ => sum_congr rfl fun i hi => by rw [h.reduceRep_at q key (mem_range.mp hi)]
  have hrep : ∑ p ∈ range (nRep ads), reduceRep ads loc r p ^ 2 =
      ∑ key with reduced ads key = true, squares ads (n + 1) G key := by
    rw [sum_rep, hlocal]
    refine sum_congr rfl fun key hkey => ?_
    obtain ⟨hsize, hat⟩ := shared_eq (.inl (mem_filter.mp hkey).2) (n + 1)
    simp only [hat, squares, hsize]
  have hshard : ∑ q, ∑ p ∈ Ico (nRep ads) (off ads), reduceRep ads loc q p ^ 2 =
      ∑ key with reduced ads key = false, (squares ads (n + 1) G key +
        if (ads key.1).kind = .rep then n * squares ads (n + 1) G key else 0) := by
    simp only [sum_shard, hlocal]
    rw [sum_comm]
    exact sum_congr rfl fun key hkey => sum_ranks G (mem_filter.mp hkey).2
  have hone : (if 1 < n + 1 then allReduce (fun q => ∑ p ∈ Ico (nRep ads) (off ads), reduceRep ads loc q p ^ 2) r
      else ∑ p ∈ Ico (nRep ads) (off ads), reduceRep ads loc r p ^ 2) =
        ∑ q, ∑ p ∈ Ico (nRep ads) (off ads), reduceRep ads loc q p ^ 2 := by
    split_ifs with hmany
    · rfl
    · obtain rfl : n = 0 := by omega
      rw [Fin.sum_univ_one, Fin.eq_zero r]
  have hnone : ∀ key ∈ univ.filter fun key => reduced ads key = true, (ads key.1).kind ≠ .rep := fun key hkey hkind => by
    have hred : reduced ads key = true := (mem_filter.mp hkey).2
    simp [reduced, hkind, Kind.replicatedFactor] at hred
  have hall : ∑ key with reduced ads key = true, squares ads (n + 1) G key =
      ∑ key with reduced ads key = true, (squares ads (n + 1) G key +
        if (ads key.1).kind = .rep then n * squares ads (n + 1) G key else 0) :=
    sum_congr rfl fun key hkey => by rw [if_neg (hnone key hkey), add_zero]
  rw [normSq]
  dsimp only
  rw [hone, hrep, hshard, hall]
  simp only [← Bool.not_eq_true]
  rw [sum_filter_add_sum_filter_not, sum_add_distrib, ← sum_filter, mul_sum, sum_whole]
  rfl

end

end SuffixHybrid.SftWorker
