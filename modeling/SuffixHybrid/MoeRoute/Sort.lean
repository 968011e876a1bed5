import Mathlib.Data.Nat.Log
import SuffixHybrid.Lib.Buckets
import SuffixHybrid.Lib.Ticket
import SuffixHybrid.MoeRoute.Gate

/-!
# The sort

The programs of the second launch place the slots of their tokens: each recounts the tokens of every expert from the
bitmaps. Together they write AITER's sort, each place once (`place_exactly`, `seid_exactly`), and each valid slot's
scales to places of their own (`scale_mem`).
-/

namespace SuffixHybrid.MoeRoute
open Lib Finset

/-! ## The sort of a routing -/

section Spec
variable (M K E block : ℕ) (route : ℕ → ℕ → ℕ)

/-- The slots of a token that go to an expert. -/
def slotsOf (t e : ℕ) : List (Option (ℕ × ℕ)) :=
  ((List.range (K + 1)).filter fun k => route t k = e).map fun k => some (t, k)

/-- The slots that go to an expert, tokens ascending. -/
def bucketOf (e : ℕ) : List (Option (ℕ × ℕ)) := (List.range M).flatMap fun t => slotsOf K route t e

/-- The slots by expert, each expert's in whole blocks. -/
def sortedSlots : List (Option (ℕ × ℕ)) := paddedSort block none (bucketOf M K route) (E + 1)

/-- The experts of the blocks. -/
def sortedExperts : List ℕ := blockKeys block (bucketOf M K route) (E + 1)

end Spec

/-- `_scale_addr`. -/
def scaleAddr (r y sn : ℕ) : ℕ :=
  r / 32 * sn * 32 + y / 8 * 256 + y % 4 * 64 + r % 16 * 4 + y % 8 / 4 * 2 + r % 32 / 16

/-- The row of an address of the scales. -/
def scaleRow (a sn : ℕ) : ℕ := a / (sn * 32) * 32 + a % 2 * 16 + a % 64 / 4

/-- The column of an address of the scales. -/
def scaleCol (a sn : ℕ) : ℕ := a % (sn * 32) / 256 * 8 + a % 4 / 2 * 4 + a % 256 / 64

lemma scaleAddr_digits {c b e d f : ℕ} (hb : b < 4) (he : e < 16) (hd : d < 2) (hf : f < 2) (rows : ℕ) :
    (256 * rows + (c * 256 + b * 64 + e * 4 + d * 2 + f)) % 2 = f ∧
      (256 * rows + (c * 256 + b * 64 + e * 4 + d * 2 + f)) % 64 / 4 = e ∧
      (256 * rows + (c * 256 + b * 64 + e * 4 + d * 2 + f)) % 4 / 2 = d ∧
      (256 * rows + (c * 256 + b * 64 + e * 4 + d * 2 + f)) % 256 / 64 = b ∧
      (c * 256 + b * 64 + e * 4 + d * 2 + f) / 256 = c :=
  ⟨by omega, by omega, by omega, by omega, by omega⟩

/-- The shuffle keeps rows and columns apart. -/
lemma scaleAddr_inv {r y n : ℕ} (hy : y < n * 8) :
    scaleRow (scaleAddr r y (n * 8)) (n * 8) = r ∧ scaleCol (scaleAddr r y (n * 8)) (n * 8) = y := by
  have hy8 : y = 8 * (y / 8) + 4 * (y % 8 / 4) + y % 4 ∧ y / 8 < n ∧ y % 8 / 4 < 2 ∧ y % 4 < 4 := by omega
  have hr32 : r = 32 * (r / 32) + 16 * (r % 32 / 16) + r % 16 ∧ r % 32 / 16 < 2 ∧ r % 16 < 16 := by omega
  have haddr : scaleAddr r y (n * 8) = n * 8 * 32 * (r / 32) +
      (y / 8 * 256 + y % 4 * 64 + r % 16 * 4 + y % 8 / 4 * 2 + r % 32 / 16) := by
    rw [scaleAddr, Nat.mul_assoc, Nat.mul_comm (r / 32)]
    omega
  rw [haddr]
  generalize y / 8 = c, y % 8 / 4 = d, y % 4 = b, r / 32 = q, r % 32 / 16 = f, r % 16 = e at hy8 hr32 ⊢
  have hlt : c * 256 + b * 64 + e * 4 + d * 2 + f < n * 8 * 32 := by omega
  have hpos : 0 < n * 8 * 32 := by omega
  have hblock : n * 8 * 32 * q = 256 * (n * q) := by
    rw [Nat.mul_assoc n, Nat.mul_comm n, Nat.mul_assoc]
  rw [scaleRow, scaleCol, Nat.mul_add_div hpos, Nat.div_eq_of_lt hlt, Nat.mul_add_mod, Nat.mod_eq_of_lt hlt, hblock]
  obtain ⟨hy', hc, hd, hb⟩ := hy8
  obtain ⟨hr', hf, he⟩ := hr32
  obtain ⟨h2, h64, h4, h256, hdiv⟩ := scaleAddr_digits (c := c) hb he hd hf (n * q)
  rw [h2, h64, h4, h256, hdiv, hr', hy']
  exact ⟨by omega, by omega⟩

lemma scaleAddr_lt {r y n rows : ℕ} (hr : r < rows) (hy : y < n * 8) :
    scaleAddr r y (n * 8) < (rows + 31) / 32 * 32 * (n * 8) := by
  have hrow : r / 32 + 1 ≤ (rows + 31) / 32 := by omega
  have hmul : (r / 32 + 1) * (n * 8 * 32) ≤ (rows + 31) / 32 * (n * 8 * 32) := Nat.mul_le_mul_right _ hrow
  have hsplit : scaleAddr r y (n * 8) < (r / 32 + 1) * (n * 8 * 32) := by
    rw [scaleAddr, Nat.succ_mul, Nat.mul_assoc]
    omega
  refine hsplit.trans_le (hmul.trans_eq ?_)
  rw [Nat.mul_comm (n * 8), Nat.mul_assoc]

/-! ## The kernel -/

/-- A launch of `_route_sort_kernel`. -/
structure RouteSort (W : Type) where
  M : ℕ
  nPad : ℕ
  E : ℕ
  K : ℕ
  H : ℕ
  block : ℕ
  mp : ℕ
  tpp : ℕ
  tch : ℕ
  w : ℕ → ℕ → W
  ids : ℕ → ℕ → ℕ
  map : ℕ → ℕ → ℕ
  stage : ℕ → ℕ → ℕ
  zero : W

namespace RouteSort
variable {V W : Type} (S : RouteSort W)

/-- The lane of a token and a slot has one. -/
def Valid (t k : ℕ) : Prop := t < S.M ∧ k ≤ S.K

instance (t k : ℕ) : Decidable (S.Valid t k) := inferInstanceAs (Decidable (_ ∧ _))

/-- `e`. -/
def expert (t k : ℕ) : ℕ := if S.Valid t k then if k < S.K then S.ids t k else S.E else 1023

/-- `has`. -/
def has (t k tp : ℕ) : ℕ :=
  (if S.Valid t k ∧ tp < S.M then S.map tp (S.expert t k / 32) else 0) / 2 ^ (S.expert t k % 32) % 2

/-- `cnt`. -/
def cnt (t k : ℕ) : ℕ := ∑ tp ∈ range S.mp, S.has t k tp

/-- `rank`. -/
def rank (t k : ℕ) : ℕ := ∑ tp ∈ range S.mp, if tp < t then S.has t k tp else 0

/-- `n`, of lane `q` in chunk `c`. -/
def n (c q : ℕ) : ℕ := ∑ r ∈ range (S.mp / S.tch), ∑ j ∈ range S.tch,
  (if r * S.tch + j < S.M ∧ c * 8 + q / 32 < 32 then S.map (r * S.tch + j) (c * 8 + q / 32) else 0) / 2 ^ (q % 32) % 2

/-- `nb`. -/
def nb (c q : ℕ) : ℕ := cdiv (S.n c q) S.block

/-- `pre`. -/
def pre (t k : ℕ) : ℕ := ∑ c ∈ range ((S.E + 256) / 256), ∑ q ∈ range 256,
  if c * 256 + q < S.expert t k then S.nb c q else 0

/-- `total`. -/
def total : ℕ := ∑ c ∈ range ((S.E + 256) / 256), ∑ q ∈ range 256, S.nb c q

/-- `dest`. -/
def dest (t k : ℕ) : ℕ := S.pre t k * S.block + S.rank t k

/-- `put`. -/
def Put (t k : ℕ) : Prop := S.Valid t k ∧ S.dest t k < S.nPad

instance (t k : ℕ) : Decidable (S.Put t k) := inferInstanceAs (Decidable (_ ∧ _))

/-- `pad` of round `j`. -/
def Pad (j t k : ℕ) : Prop :=
  (S.Valid t k ∧ S.rank t k + 1 = S.cnt t k) ∧ S.cnt t k + j < cdiv (S.cnt t k) S.block * S.block ∧
    S.dest t k + 1 + j < S.nPad

instance (j t k : ℕ) : Decidable (S.Pad j t k) := inferInstanceAs (Decidable (_ ∧ _))

/-- The tokens and slots of a program. -/
def lanes (p : ℕ) : List (ℕ × ℕ) := (List.range (16 * S.tpp)).map fun i => (p * S.tpp + i / 16, i % 16)

/-- The programs. -/
def programs : List ℕ := List.range (cdiv S.M S.tpp)

/-- A program's stores of its slots and of the padding behind them. -/
def placeStores (v : ℕ × ℕ → V) (pad : V) (p : ℕ) : List (ℕ × V) :=
  ((S.lanes p).flatMap fun l => if S.Put l.1 l.2 then [(S.dest l.1 l.2, v l)] else []) ++
    (List.range S.block).flatMap fun j => (S.lanes p).flatMap fun l =>
      if S.Pad j l.1 l.2 then [(S.dest l.1 l.2 + 1 + j, pad)] else []

/-- The stores to `sid_ptr`. -/
def sidStores : List (ℕ × ℕ) :=
  S.programs.flatMap (S.placeStores (fun l => l.1 ||| l.2 <<< 24) (S.M ||| (S.K + 1) <<< 24))

/-- The stores to `sw_ptr`. -/
def swStores : List (ℕ × W) :=
  S.programs.flatMap (S.placeStores (fun l => if S.Valid l.1 l.2 then S.w l.1 l.2 else S.zero) S.zero)

/-- The stores to `seid_ptr`. -/
def seidStores : List (ℕ × ℕ) := S.programs.flatMap fun p => (S.lanes p).flatMap fun l =>
  if S.Put l.1 l.2 ∧ S.rank l.1 l.2 % S.block = 0 then [(S.dest l.1 l.2 / S.block, S.expert l.1 l.2)] else []

/-- The stores to `nv_ptr`. -/
def nvStores : List (ℕ × ℕ) := S.programs.flatMap fun p => (List.range (16 * S.tpp)).flatMap fun i =>
  if i < 2 ∧ p = 0 then [(i, if i = 0 then min (S.total * S.block) S.nPad else S.M)] else []

/-- `SN`. -/
def sn : ℕ := (S.H / 32 + 7) / 8 * 8

/-- The stores to `a1s_ptr`. -/
def scaleStores : List (ℕ × ℕ) := S.programs.flatMap fun p =>
  (List.range ((S.H / 32 + 31) / 32)).flatMap fun c => (S.lanes p).flatMap fun l => (List.range 32).flatMap fun i =>
    if S.Put l.1 l.2 ∧ c * 32 + i < S.H / 32 then
      [(scaleAddr (S.dest l.1 l.2) (c * 32 + i) S.sn, S.stage l.1 (c * 32 + i))]
    else []

/-- What `_route` and the first launch guarantee of a launch. -/
structure Ok : Prop where
  slots : S.K < 16
  experts : S.E < 1023
  le : S.K ≤ S.E
  block_pos : 0 < S.block
  tpp_pos : 0 < S.tpp
  tch_pos : 0 < S.tch
  rows : S.M ≤ S.mp
  chunks : S.tch ∣ S.mp
  room : S.nPad = cdiv ((S.K + 1) * S.M + (S.E + 1) * S.block - (S.K + 1)) S.block * S.block
  ids_lt : ∀ t < S.M, ∀ k < S.K, S.ids t k < S.E
  distinct : ∀ t < S.M, ∀ i ≤ S.K, ∀ j ≤ S.K, S.expert t i = S.expert t j → i = j
  map : ∀ t < S.M, ∀ x < 1024, S.map t (x / 32) / 2 ^ (x % 32) % 2 = if ∃ k ≤ S.K, S.expert t k = x then 1 else 0

/-- The slots of the launch, sorted. -/
def sorted : List (Option (ℕ × ℕ)) := sortedSlots S.M S.K S.E S.block S.expert

/-- The slots of an expert. -/
abbrev bucket : ℕ → List (Option (ℕ × ℕ)) := bucketOf S.M S.K S.expert

/-- The blocks before an expert's. -/
abbrev start : ℕ → ℕ := blockStart S.block S.bucket
variable {S} {t k e x : ℕ}

/-! ## Buckets -/

lemma expert_of_valid (h : S.Valid t k) : S.expert t k = if k < S.K then S.ids t k else S.E := if_pos h

lemma Ok.expert_le (hS : S.Ok) (h : S.Valid t k) : S.expert t k ≤ S.E := by
  rw [expert_of_valid h]
  split_ifs with hk
  · exact (hS.ids_lt t h.1 k hk).le
  · exact le_rfl

/-- The slots of an expert in a token that has it. -/
lemma Ok.slotsOf_eq (hS : S.Ok) (h : S.Valid t k) : slotsOf S.K S.expert t (S.expert t k) = [some (t, k)] := by
  have hfilter : (List.range (S.K + 1)).filter (fun j => S.expert t j = S.expert t k) = [k] := by
    refine List.perm_singleton.mp ((List.perm_ext_iff_of_nodup (List.nodup_range.filter _) (List.nodup_singleton k)).mpr ?_)
    intro j
    rw [List.mem_filter, List.mem_range, List.mem_singleton, decide_eq_true_eq]
    constructor
    · rintro ⟨hj, heq⟩
      exact hS.distinct t h.1 j (Nat.le_of_lt_succ hj) k h.2 heq
    · rintro rfl
      exact ⟨Nat.lt_succ_of_le h.2, rfl⟩
  rw [slotsOf, hfilter, List.map_singleton]

lemma slotsOf_eq_nil (h : ¬∃ k ≤ S.K, S.expert t k = e) : slotsOf S.K S.expert t e = [] := by
  rw [slotsOf, List.map_eq_nil_iff, List.filter_eq_nil_iff]
  intro k hk heq
  exact h ⟨k, Nat.le_of_lt_succ (List.mem_range.mp hk), of_decide_eq_true heq⟩

lemma Ok.length_slotsOf (hS : S.Ok) (ht : t < S.M) (e : ℕ) :
    (slotsOf S.K S.expert t e).length = if ∃ k ≤ S.K, S.expert t k = e then 1 else 0 := by
  split_ifs with h
  · obtain ⟨k, hk, rfl⟩ := h
    rw [hS.slotsOf_eq ⟨ht, hk⟩, List.length_singleton]
  · rw [slotsOf_eq_nil h, List.length_nil]

/-- The bit of an expert in a token's bitmap counts its slots. -/
lemma Ok.bit_eq (hS : S.Ok) (ht : t < S.M) (hx : x < 1024) :
    S.map t (x / 32) / 2 ^ (x % 32) % 2 = (slotsOf S.K S.expert t x).length := by
  rw [hS.map t ht x hx, hS.length_slotsOf ht]

/-- The slots before a token's. -/
def before (S : RouteSort W) (t e : ℕ) : ℕ := ∑ u ∈ range t, (slotsOf S.K S.expert u e).length

lemma length_bucket (e : ℕ) : (S.bucket e).length = S.before S.M e := length_flatMap_range _ _

/-- A slot has its place in the bucket of its expert. -/
lemma Ok.bucket_at (hS : S.Ok) (h : S.Valid t k) :
    (S.bucket (S.expert t k))[S.before t (S.expert t k)]? = some (some (t, k)) := by
  have hslots := hS.slotsOf_eq h
  have hat := getElem?_flatMap_range (fun u => slotsOf S.K S.expert u (S.expert t k)) h.1 (r := 0)
    (by rw [hslots]; exact Nat.zero_lt_one)
  rw [Nat.add_zero, hslots] at hat
  exact hat

lemma Ok.before_lt (hS : S.Ok) (h : S.Valid t k) : S.before t (S.expert t k) < (S.bucket (S.expert t k)).length :=
  (List.getElem?_eq_some_iff.mp (hS.bucket_at h)).1

/-- Each place of a bucket is a slot's. -/
lemma Ok.exists_slot_at (hS : S.Ok) {r : ℕ} (h : r < (S.bucket e).length) :
    ∃ t k, S.Valid t k ∧ S.expert t k = e ∧ S.before t e = r := by
  rw [length_bucket] at h
  obtain ⟨t, ht, j, hj, rfl⟩ := exists_part h
  rw [hS.length_slotsOf ht] at hj
  split_ifs at hj with hex
  · obtain ⟨k, hk, hke⟩ := hex
    exact ⟨t, k, ⟨ht, hk⟩, hke, by rw [before]; omega⟩
  · cases hj

lemma Ok.before_inj (hS : S.Ok) {t' k' : ℕ} (h : S.Valid t k) (h' : S.Valid t' k') (he : S.expert t k = S.expert t' k')
    (hr : S.before t (S.expert t k) = S.before t' (S.expert t' k')) : t = t' ∧ k = k' := by
  have hat := hS.bucket_at h
  rw [hr, he, hS.bucket_at h'] at hat
  have heq := Option.some.inj (Option.some.inj hat)
  exact ⟨congrArg Prod.fst heq.symm, congrArg Prod.snd heq.symm⟩

/-! ## Counts -/

/-- A sum over lanes that are masked past the rows. -/
lemma sum_masked {f g : ℕ → ℕ} {m w : ℕ} (h : m ≤ w) (hin : ∀ t < m, f t = g t) (hout : ∀ t, m ≤ t → f t = 0) :
    ∑ t ∈ range w, f t = ∑ t ∈ range m, g t := by
  rw [← sum_subset (range_subset_range.mpr h) fun t _ ht => hout t (not_lt.mp fun hlt => ht (mem_range.mpr hlt))]
  exact sum_congr rfl fun t ht => hin t (mem_range.mp ht)

lemma has_of_le {tp : ℕ} (h : S.M ≤ tp) : S.has t k tp = 0 := by
  rw [has, if_neg fun hm => absurd hm.2 (not_lt.mpr h), Nat.zero_div, Nat.zero_mod]

lemma Ok.has_eq (hS : S.Ok) (h : S.Valid t k) {tp : ℕ} (htp : tp < S.M) :
    S.has t k tp = (slotsOf S.K S.expert tp (S.expert t k)).length := by
  have hle := hS.expert_le h
  have hlt := hS.experts
  rw [has, if_pos ⟨h, htp⟩, hS.bit_eq htp (by omega)]

lemma Ok.cnt_eq (hS : S.Ok) (h : S.Valid t k) : S.cnt t k = (S.bucket (S.expert t k)).length := by
  rw [length_bucket]
  exact sum_masked hS.rows (fun tp htp => hS.has_eq h htp) fun tp htp => has_of_le htp

lemma Ok.rank_eq (hS : S.Ok) (h : S.Valid t k) : S.rank t k = S.before t (S.expert t k) := by
  refine sum_masked (h.1.le.trans hS.rows) (fun tp htp => ?_) fun tp htp => if_neg (not_lt.mpr htp)
  rw [if_pos htp, hS.has_eq h (htp.trans h.1)]

lemma Ok.bucket_of_gt (hS : S.Ok) (h : S.E < x) : S.bucket x = [] := by
  refine List.flatMap_eq_nil_iff.mpr fun t ht => slotsOf_eq_nil ?_
  rintro ⟨k, hk, rfl⟩
  exact absurd (hS.expert_le ⟨List.mem_range.mp ht, hk⟩) (not_le.mpr h)

/-- A lane of a chunk counts the tokens of its expert. -/
lemma Ok.n_eq (hS : S.Ok) (c q : ℕ) : S.n c q = (S.bucket (256 * c + q)).length := by
  have hword : c * 8 + q / 32 = (256 * c + q) / 32 := by omega
  have hbit : q % 32 = (256 * c + q) % 32 := by omega
  have hblocks := sum_blocks (fun u => (if u < S.M ∧ c * 8 + q / 32 < 32 then S.map u (c * 8 + q / 32) else 0) /
    2 ^ (q % 32) % 2) S.tch (S.mp / S.tch)
  rw [n]
  simp only [Nat.mul_comm _ S.tch]
  rw [hblocks, Nat.mul_div_cancel' hS.chunks, length_bucket]
  refine sum_masked hS.rows (fun u hu => ?_) fun u hu => ?_
  · rw [hword, hbit]
    by_cases hx : 256 * c + q < 1024
    · rw [if_pos ⟨hu, by omega⟩, hS.bit_eq hu hx]
    · rw [if_neg (by omega), Nat.zero_div, Nat.zero_mod, slotsOf_eq_nil, List.length_nil]
      rintro ⟨k, hk, he⟩
      have hle := hS.expert_le ⟨hu, hk⟩
      have hlt := hS.experts
      omega
  · rw [if_neg fun hm => absurd hm.1 (not_lt.mpr hu), Nat.zero_div, Nat.zero_mod]

lemma Ok.nb_eq (hS : S.Ok) (c q : ℕ) : S.nb c q = cdiv (S.bucket (256 * c + q)).length S.block := by
  rw [nb, hS.n_eq]

/-- The experts in all chunks. -/
lemma chunks_le (S : RouteSort W) : S.E + 1 ≤ 256 * ((S.E + 256) / 256) := by omega

lemma Ok.pre_eq (hS : S.Ok) (h : S.Valid t k) : S.pre t k = S.start (S.expert t k) := by
  have hle := hS.expert_le h
  have hchunks := S.chunks_le
  have hsum : S.pre t k = ∑ c ∈ range ((S.E + 256) / 256), ∑ q ∈ range 256,
      if 256 * c + q < S.expert t k then cdiv (S.bucket (256 * c + q)).length S.block else 0 := by
    refine sum_congr rfl fun c _ => sum_congr rfl fun q _ => ?_
    rw [hS.nb_eq, Nat.mul_comm c]
  rw [hsum, sum_blocks fun x => if x < S.expert t k then cdiv (S.bucket x).length S.block else 0]
  exact sum_masked (by omega) (fun x hx => if_pos hx) fun x hx => if_neg (not_lt.mpr hx)

lemma Ok.total_eq (hS : S.Ok) : S.total = S.start (S.E + 1) := by
  have hsum : S.total = ∑ c ∈ range ((S.E + 256) / 256), ∑ q ∈ range 256, cdiv (S.bucket (256 * c + q)).length S.block :=
    sum_congr rfl fun c _ => sum_congr rfl fun q _ => hS.nb_eq c q
  rw [hsum, sum_blocks fun x => cdiv (S.bucket x).length S.block]
  refine sum_masked S.chunks_le (fun _ _ => rfl) fun x hx => ?_
  rw [hS.bucket_of_gt hx, List.length_nil, cdiv, Nat.zero_add, Nat.div_eq_of_lt]
  have := hS.block_pos
  omega

/-! ## Places -/

lemma Ok.dest_eq (hS : S.Ok) (h : S.Valid t k) :
    S.dest t k = S.block * S.start (S.expert t k) + S.before t (S.expert t k) := by
  rw [dest, hS.pre_eq h, hS.rank_eq h, Nat.mul_comm]

/-- The slots and their padding fit. -/
lemma Ok.total_le (hS : S.Ok) : S.block * S.start (S.E + 1) ≤ S.nPad := by
  have hentries : ∑ e ∈ range (S.E + 1), (S.bucket e).length ≤ (S.K + 1) * S.M := by
    have hrow : ∀ t ∈ range S.M, ∑ e ∈ range (S.E + 1), (slotsOf S.K S.expert t e).length ≤ S.K + 1 := fun t _ => by
      have hcard : ∀ e, (slotsOf S.K S.expert t e).length = ((range (S.K + 1)).filter fun k => S.expert t k = e).card :=
        fun e => List.length_map _
      simp only [hcard]
      rw [sum_card_fiberwise_eq_card_filter]
      exact (card_filter_le _ _).trans_eq (card_range _)
    simp only [length_bucket, before]
    rw [sum_comm]
    refine (sum_le_sum hrow).trans_eq ?_
    rw [sum_const, card_range, smul_eq_mul, Nat.mul_comm]
  have hle := mul_blockStart_le S.bucket hS.block_pos (S.E + 1)
  have hsub : (S.E + 1) * (S.block - 1) + (S.E + 1) = (S.E + 1) * S.block := by
    rw [← Nat.mul_succ, Nat.succ_eq_add_one, Nat.sub_add_cancel hS.block_pos]
  have hKE := hS.le
  rw [hS.room, Nat.mul_comm _ S.block]
  refine le_trans (Nat.le_sub_of_add_le ?_) (le_mul_cdiv hS.block_pos)
  calc S.block * S.start (S.E + 1) + (S.K + 1)
      ≤ (S.K + 1) * S.M + (S.E + 1) * (S.block - 1) + (S.E + 1) :=
        Nat.add_le_add (hle.trans (Nat.add_le_add_right hentries _)) (Nat.succ_le_succ hKE)
    _ = (S.K + 1) * S.M + (S.E + 1) * S.block := by rw [Nat.add_assoc, hsub]
/-- The places of an expert. -/
abbrev room (S : RouteSort W) (e : ℕ) : ℕ := S.block * cdiv (S.bucket e).length S.block

lemma Ok.length_sorted (hS : S.Ok) : S.sorted.length = S.block * S.start (S.E + 1) :=
  length_paddedSort none S.bucket hS.block_pos _

lemma Ok.length_le_room (hS : S.Ok) (e : ℕ) : (S.bucket e).length ≤ S.room e := le_mul_cdiv hS.block_pos

lemma Ok.place_lt (hS : S.Ok) (h : S.Valid t k) {q : ℕ} (hq : q < S.room (S.expert t k)) :
    S.block * S.start (S.expert t k) + q < S.sorted.length := by
  rw [hS.length_sorted]
  exact slot_lt S.bucket (Nat.lt_succ_of_le (hS.expert_le h)) hq

lemma Ok.put_iff (hS : S.Ok) : S.Put t k ↔ S.Valid t k := by
  refine and_iff_left_of_imp fun h => ?_
  rw [hS.dest_eq h]
  refine (hS.place_lt h ((hS.before_lt h).trans_le (hS.length_le_room _))).trans_le ?_
  rw [hS.length_sorted]
  exact hS.total_le

lemma Ok.pad_iff (hS : S.Ok) {j : ℕ} : S.Pad j t k ↔ S.Valid t k ∧
    S.before t (S.expert t k) + 1 = (S.bucket (S.expert t k)).length ∧
      (S.bucket (S.expert t k)).length + j < S.room (S.expert t k) := by
  rw [Pad, and_assoc]
  refine and_congr_right fun h => ?_
  rw [hS.rank_eq h, hS.cnt_eq h, hS.dest_eq h, Nat.mul_comm (cdiv _ _)]
  refine and_congr_right fun hlast => and_iff_left_of_imp fun hj => ?_
  have hlt := hS.place_lt h hj
  have hle := hS.total_le
  rw [hS.length_sorted] at hlt
  omega

/-- A slot writes to its place, and an expert's last slot to the padding behind it. -/
def Writes (S : RouteSort W) (l : ℕ × ℕ) (q r : ℕ) : Prop :=
  S.Valid l.1 l.2 ∧ q < S.room (S.expert l.1 l.2) ∧ r = S.block * S.start (S.expert l.1 l.2) + q ∧
    (q = S.before l.1 (S.expert l.1 l.2) ∨ S.before l.1 (S.expert l.1 l.2) + 1 = (S.bucket (S.expert l.1 l.2)).length ∧
      (S.bucket (S.expert l.1 l.2)).length ≤ q)

lemma Ok.put_writes (hS : S.Ok) {l : ℕ × ℕ} {r : ℕ} (h : S.Put l.1 l.2 ∧ S.dest l.1 l.2 = r) :
    S.Writes l (S.before l.1 (S.expert l.1 l.2)) r := by
  have hv := hS.put_iff.mp h.1
  exact ⟨hv, (hS.before_lt hv).trans_le (hS.length_le_room _), h.2.symm.trans (hS.dest_eq hv), .inl rfl⟩

lemma Ok.pad_writes (hS : S.Ok) {l : ℕ × ℕ} {j r : ℕ} (h : S.Pad j l.1 l.2 ∧ S.dest l.1 l.2 + 1 + j = r) :
    S.Writes l ((S.bucket (S.expert l.1 l.2)).length + j) r := by
  obtain ⟨hv, hlast, hj⟩ := hS.pad_iff.mp h.1
  refine ⟨hv, hj, ?_, .inr ⟨hlast, Nat.le_add_right _ _⟩⟩
  rw [← h.2, hS.dest_eq hv]
  omega

/-- No place is written by two slots. -/
lemma Ok.writes_unique (hS : S.Ok) {l l' : ℕ × ℕ} {q q' r : ℕ} (h : S.Writes l q r) (h' : S.Writes l' q' r) :
    l = l' ∧ q = q' := by
  obtain ⟨hv, hq, hr, hcase⟩ := h
  obtain ⟨hv', hq', hr', hcase'⟩ := h'
  obtain ⟨he, rfl⟩ := slot_unique S.bucket hq hq' (hr.symm.trans hr')
  have hlt := hS.before_lt hv
  have hlt' := hS.before_lt hv'
  have hsame : S.before l.1 (S.expert l.1 l.2) = S.before l'.1 (S.expert l'.1 l'.2) := by
    rw [← he] at hcase' hlt' ⊢
    obtain hput | hpad := hcase
    · obtain hput' | hpad' := hcase'
      · exact hput.symm.trans hput'
      · omega
    · obtain hput' | hpad' := hcase'
      · omega
      · omega
  obtain ⟨ht, hk⟩ := hS.before_inj hv hv' he hsame
  exact ⟨Prod.ext ht hk, rfl⟩

/-! ## Programs -/

lemma mem_lanes_iff (htpp : 0 < S.tpp) {p : ℕ} {l : ℕ × ℕ} : l ∈ S.lanes p ↔ l.1 / S.tpp = p ∧ l.2 < 16 := by
  rw [lanes, List.mem_map]
  constructor
  · rintro ⟨i, hi, rfl⟩
    rw [List.mem_range] at hi
    refine ⟨?_, Nat.mod_lt i (by decide)⟩
    dsimp only
    rw [Nat.mul_comm, Nat.mul_add_div htpp, Nat.div_eq_of_lt (by omega), Nat.add_zero]
  · rintro ⟨rfl, hk⟩
    have hmod := Nat.mod_lt l.1 htpp
    have hdiv := Nat.div_add_mod l.1 S.tpp
    refine ⟨16 * (l.1 % S.tpp) + l.2, List.mem_range.mpr (by omega), Prod.ext ?_ ?_⟩
    · dsimp only
      rw [Nat.mul_comm] at hdiv
      omega
    · dsimp only
      omega

lemma nodup_lanes (p : ℕ) : (S.lanes p).Nodup := by
  refine List.Nodup.map (fun i j h => ?_) List.nodup_range
  rw [Prod.mk.injEq] at h
  omega

/-- Each slot has its program. -/
lemma Ok.mem_programs (hS : S.Ok) (h : S.Valid t k) : t / S.tpp ∈ S.programs ∧ (t, k) ∈ S.lanes (t / S.tpp) := by
  refine ⟨List.mem_range.mpr ((lt_cdiv_iff hS.tpp_pos).mpr ((Nat.mul_div_le t S.tpp).trans_lt h.1)), ?_⟩
  exact (mem_lanes_iff hS.tpp_pos).mpr ⟨rfl, h.2.trans_lt hS.slots⟩

lemma Ok.sorted_at (hS : S.Ok) (h : S.Valid t k) : S.sorted[S.dest t k]? = some (some (t, k)) := by
  rw [hS.dest_eq h]
  refine (getElem?_paddedSort none S.bucket hS.block_pos (Nat.lt_succ_of_le (hS.expert_le h)) (hS.before_lt h)).trans ?_
  exact hS.bucket_at h

lemma Ok.sorted_pad (hS : S.Ok) {j : ℕ} (h : S.Pad j t k) : S.sorted[S.dest t k + 1 + j]? = some none := by
  obtain ⟨hv, hlast, hj⟩ := hS.pad_iff.mp h
  have hdest : S.dest t k + 1 + j = S.block * S.start (S.expert t k) + ((S.bucket (S.expert t k)).length + j) := by
    rw [hS.dest_eq hv]
    omega
  rw [hdest]
  exact getElem?_paddedSort_of_le none S.bucket hS.block_pos (Nat.lt_succ_of_le (hS.expert_le hv)) (Nat.le_add_right _ _) hj

/-- Each place is a slot's or in the padding behind one. -/
lemma Ok.exists_place (hS : S.Ok) {r : ℕ} (h : r < S.sorted.length) :
    ∃ t k, S.Put t k ∧ S.dest t k = r ∨ ∃ j < S.block, S.Pad j t k ∧ S.dest t k + 1 + j = r := by
  rw [hS.length_sorted] at h
  obtain ⟨e, -, q, hq, rfl⟩ := exists_slot S.bucket h
  by_cases hlt : q < (S.bucket e).length
  · obtain ⟨t, k, hv, rfl, rfl⟩ := hS.exists_slot_at hlt
    exact ⟨t, k, .inl ⟨hS.put_iff.mpr hv, hS.dest_eq hv⟩⟩
  · -- the bucket is not empty, and its last slot pads
    have hpos : 0 < (S.bucket e).length := by
      by_contra hzero
      rw [Nat.eq_zero_of_not_pos hzero, cdiv, Nat.zero_add, Nat.div_eq_of_lt (Nat.sub_lt hS.block_pos Nat.zero_lt_one)] at hq
      exact absurd hq (Nat.not_lt_zero _)
    obtain ⟨t, k, hv, rfl, hlast⟩ := hS.exists_slot_at (Nat.sub_lt hpos Nat.zero_lt_one)
    have hroom := mul_cdiv_lt hS.block_pos (S.bucket (S.expert t k)).length
    obtain ⟨j, rfl⟩ := Nat.exists_eq_add_of_le (not_lt.mp hlt)
    have hpad : S.Pad j t k := hS.pad_iff.mpr ⟨hv, by rw [hlast]; exact Nat.sub_add_cancel hpos, hq⟩
    refine ⟨t, k, .inr ⟨j, Nat.lt_of_add_lt_add_left (hq.trans hroom), hpad, ?_⟩⟩
    rw [hS.dest_eq hv, hlast, Nat.add_assoc _ _ 1, Nat.sub_add_cancel hpos, Nat.add_assoc]

/-- The programs store each slot at its place and padding at the others, each place once. -/
theorem Ok.place_exactly (hS : S.Ok) {v : ℕ × ℕ → V} {pad : V} {f : Option (ℕ × ℕ) → V}
    (hv : ∀ l, S.Valid l.1 l.2 → v l = f (some l)) (hpad : pad = f none) :
    Exactly (S.programs.flatMap (S.placeStores v pad)) (· < S.sorted.length) fun r => f (S.sorted.getD r none) := by
  have hputs (p : ℕ) : Exactly ((S.lanes p).flatMap fun l => if S.Put l.1 l.2 then [(S.dest l.1 l.2, v l)] else [])
      (fun r => ∃ l ∈ S.lanes p, S.Put l.1 l.2 ∧ S.dest l.1 l.2 = r) fun r => f (S.sorted.getD r none) := by
    refine Exactly.grid (nodup_lanes p) (fun l _ => Exactly.single fun hput => ?_) fun l _ l' _ r hl hl' => ?_
    · rw [List.getD_eq_getElem?_getD, hS.sorted_at (hS.put_iff.mp hput)]
      exact hv l (hS.put_iff.mp hput)
    · exact (hS.writes_unique (hS.put_writes hl) (hS.put_writes hl')).1
  have hpads (p : ℕ) : Exactly ((List.range S.block).flatMap fun j => (S.lanes p).flatMap fun l =>
      if S.Pad j l.1 l.2 then [(S.dest l.1 l.2 + 1 + j, pad)] else [])
      (fun r => ∃ j ∈ List.range S.block, ∃ l ∈ S.lanes p, S.Pad j l.1 l.2 ∧ S.dest l.1 l.2 + 1 + j = r)
      fun r => f (S.sorted.getD r none) := by
    refine Exactly.grid List.nodup_range (fun j _ => Exactly.grid (nodup_lanes p) (fun l _ => Exactly.single fun h => ?_)
      fun l _ l' _ r hl hl' => ?_) fun j _ j' _ r hj hj' => ?_
    · rw [List.getD_eq_getElem?_getD, hS.sorted_pad h]
      exact hpad
    · exact (hS.writes_unique (hS.pad_writes hl) (hS.pad_writes hl')).1
    · obtain ⟨l, -, hl⟩ := hj
      obtain ⟨l', -, hl'⟩ := hj'
      obtain ⟨rfl, hq⟩ := hS.writes_unique (hS.pad_writes hl) (hS.pad_writes hl')
      exact Nat.add_left_cancel hq
  have hprogram (p : ℕ) := (hputs p).append (hpads p) fun r hput hpads => by
    obtain ⟨l, -, hl⟩ := hput
    obtain ⟨j, -, l', -, hl'⟩ := hpads
    obtain ⟨rfl, hq⟩ := hS.writes_unique (hS.put_writes hl) (hS.pad_writes hl')
    have := hS.before_lt (hS.put_iff.mp hl.1)
    omega
  -- a place has one writer, who is in one program
  have hwriter {p r : ℕ} (h : (∃ l ∈ S.lanes p, S.Put l.1 l.2 ∧ S.dest l.1 l.2 = r) ∨
      ∃ j ∈ List.range S.block, ∃ l ∈ S.lanes p, S.Pad j l.1 l.2 ∧ S.dest l.1 l.2 + 1 + j = r) :
      ∃ l ∈ S.lanes p, ∃ q, S.Writes l q r := by
    obtain ⟨l, hl, h⟩ | ⟨j, -, l, hl, h⟩ := h
    · exact ⟨l, hl, _, hS.put_writes h⟩
    · exact ⟨l, hl, _, hS.pad_writes h⟩
  refine (Exactly.grid List.nodup_range (fun p _ => hprogram p) fun p _ p' _ r h h' => ?_).congr fun r => ?_
  · obtain ⟨l, hl, q, hw⟩ := hwriter h
    obtain ⟨l', hl', q', hw'⟩ := hwriter h'
    obtain ⟨rfl, -⟩ := hS.writes_unique hw hw'
    exact ((mem_lanes_iff hS.tpp_pos).mp hl).1.symm.trans ((mem_lanes_iff hS.tpp_pos).mp hl').1
  · constructor
    · rintro ⟨p, -, h⟩
      obtain ⟨l, -, q, hval, hq, rfl, -⟩ := hwriter h
      exact hS.place_lt hval hq
    · intro hr
      obtain ⟨t, k, ⟨hput, hdest⟩ | ⟨j, hj, hpadj, hdest⟩⟩ := hS.exists_place hr
      · obtain ⟨hp, hl⟩ := hS.mem_programs (hS.put_iff.mp hput)
        exact ⟨_, hp, .inl ⟨(t, k), hl, hput, hdest⟩⟩
      · obtain ⟨hp, hl⟩ := hS.mem_programs (hS.pad_iff.mp hpadj).1
        exact ⟨_, hp, .inr ⟨j, List.mem_range.mpr hj, (t, k), hl, hpadj, hdest⟩⟩

/-- Each slot opens its block, if it is the first there. -/
lemma Ok.block_eq (hS : S.Ok) (h : S.Valid t k) :
    S.dest t k / S.block = S.start (S.expert t k) + S.before t (S.expert t k) / S.block := by
  rw [hS.dest_eq h, Nat.mul_add_div hS.block_pos]

lemma Ok.block_lt (hS : S.Ok) (h : S.Valid t k) :
    S.before t (S.expert t k) / S.block < cdiv (S.bucket (S.expert t k)).length S.block := by
  rw [lt_cdiv_iff hS.block_pos]
  exact (Nat.mul_div_le _ _).trans_lt (hS.before_lt h)

/-- The programs store the expert of each block once. -/
theorem Ok.seid_exactly (hS : S.Ok) : Exactly S.seidStores
    (· < (sortedExperts S.M S.K S.E S.block S.expert).length)
    fun b => (sortedExperts S.M S.K S.E S.block S.expert).getD b 0 := by
  have hunique {l l' : ℕ × ℕ} {b : ℕ} (h : (S.Put l.1 l.2 ∧ S.rank l.1 l.2 % S.block = 0) ∧ S.dest l.1 l.2 / S.block = b)
      (h' : (S.Put l'.1 l'.2 ∧ S.rank l'.1 l'.2 % S.block = 0) ∧ S.dest l'.1 l'.2 / S.block = b) : l = l' := by
    obtain ⟨⟨hput, hfirst⟩, hb⟩ := h
    obtain ⟨⟨hput', hfirst'⟩, hb'⟩ := h'
    have hv := hS.put_iff.mp hput
    have hv' := hS.put_iff.mp hput'
    rw [hS.rank_eq hv] at hfirst
    rw [hS.rank_eq hv'] at hfirst'
    rw [hS.block_eq hv] at hb
    rw [hS.block_eq hv'] at hb'
    obtain ⟨he, hdiv⟩ := part_unique (s := fun e => cdiv (S.bucket e).length S.block) (hS.block_lt hv)
      (hS.block_lt hv') (hb.trans hb'.symm)
    have hmul := Nat.div_add_mod (S.before l.1 (S.expert l.1 l.2)) S.block
    rw [hdiv, hfirst, ← hfirst', Nat.div_add_mod] at hmul
    obtain ⟨ht, hk⟩ := hS.before_inj hv hv' he hmul.symm
    exact Prod.ext ht hk
  have hslot (l : ℕ × ℕ) : Exactly
      (if S.Put l.1 l.2 ∧ S.rank l.1 l.2 % S.block = 0 then [(S.dest l.1 l.2 / S.block, S.expert l.1 l.2)] else [])
      (fun b => (S.Put l.1 l.2 ∧ S.rank l.1 l.2 % S.block = 0) ∧ S.dest l.1 l.2 / S.block = b)
      fun b => (sortedExperts S.M S.K S.E S.block S.expert).getD b 0 := by
    refine Exactly.single fun h => ?_
    have hv := hS.put_iff.mp h.1
    have hat := getElem?_blockKeys S.bucket (Nat.lt_succ_of_le (hS.expert_le hv)) (hS.block_lt hv)
    rw [hS.block_eq hv, List.getD_eq_getElem?_getD]
    exact (congrArg (·.getD 0) hat).symm
  have hprogram (p : ℕ) := Exactly.grid (nodup_lanes (S := S) p) (fun l _ => hslot l) fun l _ l' _ b h h' => hunique h h'
  refine (Exactly.grid List.nodup_range (fun p _ => hprogram p) fun p _ p' _ b h h' => ?_).congr fun b => ?_
  · obtain ⟨l, hl, hb⟩ := h
    obtain ⟨l', hl', hb'⟩ := h'
    obtain rfl := hunique hb hb'
    exact ((mem_lanes_iff hS.tpp_pos).mp hl).1.symm.trans ((mem_lanes_iff hS.tpp_pos).mp hl').1
  · rw [sortedExperts, length_blockKeys]
    constructor
    · rintro ⟨p, -, l, -, ⟨hput, -⟩, rfl⟩
      have hv := hS.put_iff.mp hput
      rw [hS.block_eq hv]
      exact part_lt (s := fun e => cdiv (S.bucket e).length S.block) (hS.block_lt hv)
        (Nat.lt_succ_of_le (hS.expert_le hv))
    · intro hb
      obtain ⟨e, -, j, hj, rfl⟩ := exists_part hb
      rw [lt_cdiv_iff hS.block_pos] at hj
      obtain ⟨t, k, hv, rfl, hrank⟩ := hS.exists_slot_at hj
      obtain ⟨hp, hl⟩ := hS.mem_programs hv
      refine ⟨_, hp, (t, k), hl, ⟨hS.put_iff.mpr hv, ?_⟩, ?_⟩
      · rw [hS.rank_eq hv, hrank, Nat.mul_mod_right]
      · rw [hS.block_eq hv, hrank, Nat.mul_div_cancel_left j hS.block_pos, start, blockStart]

/-- The first program stores the length of the sort and the number of rows. -/
theorem Ok.nv_exactly (hS : S.Ok) (hM : 0 < S.M) :
    Exactly S.nvStores (· < 2) fun i => if i = 0 then S.sorted.length else S.M := by
  have hlen : min (S.total * S.block) S.nPad = S.sorted.length := by
    rw [hS.length_sorted, hS.total_eq, Nat.mul_comm, Nat.min_eq_left hS.total_le]
  rw [nvStores, hlen]
  refine (Exactly.grid List.nodup_range (fun p _ => Exactly.grid List.nodup_range (fun i _ => Exactly.single fun _ => rfl)
    fun i _ i' _ r h h' => h.2.trans h'.2.symm) fun p _ p' _ r h h' => ?_).congr fun r => ?_
  · obtain ⟨i, -, ⟨-, rfl⟩, -⟩ := h
    obtain ⟨i', -, ⟨-, rfl⟩, -⟩ := h'
    rfl
  · constructor
    · rintro ⟨p, -, i, -, ⟨hi, -⟩, rfl⟩
      exact hi
    · intro hr
      have htpp := hS.tpp_pos
      exact ⟨0, List.mem_range.mpr ((cdiv_pos_iff htpp).mpr hM), r, List.mem_range.mpr (by omega), ⟨hr, rfl⟩, rfl⟩

lemma Ok.sorted_isSome (hS : S.Ok) {r : ℕ} (h : (S.sorted.getD r none).isSome) :
    ∃ l : ℕ × ℕ, S.Put l.1 l.2 ∧ S.dest l.1 l.2 = r := by
  have hr : r < S.sorted.length := by
    by_contra hle
    rw [List.getD_eq_getElem?_getD, List.getElem?_eq_none (not_lt.mp hle)] at h
    cases h
  obtain ⟨t, k, hput | ⟨j, -, hpad, rfl⟩⟩ := hS.exists_place hr
  · exact ⟨(t, k), hput⟩
  · rw [List.getD_eq_getElem?_getD, hS.sorted_pad hpad] at h
    cases h

lemma col_lt {y : ℕ} (hy : y < S.H / 32) : y < (S.H / 32 + 7) / 8 * 8 := by omega

/-- The programs store the scales of each slot's token at its row, each byte once. -/
theorem Ok.scale_exactly (hS : S.Ok) : Exactly S.scaleStores
    (fun a => ∃ r y, (S.sorted.getD r none).isSome ∧ y < S.H / 32 ∧ scaleAddr r y S.sn = a)
    fun a => (S.sorted.getD (scaleRow a S.sn) none).elim 0 fun l => S.stage l.1 (scaleCol a S.sn) := by
  have hunique {l l' : ℕ × ℕ} {y y' a : ℕ} (h : (S.Put l.1 l.2 ∧ y < S.H / 32) ∧ scaleAddr (S.dest l.1 l.2) y S.sn = a)
      (h' : (S.Put l'.1 l'.2 ∧ y' < S.H / 32) ∧ scaleAddr (S.dest l'.1 l'.2) y' S.sn = a) : l = l' ∧ y = y' := by
    obtain ⟨⟨hput, hy⟩, rfl⟩ := h
    obtain ⟨⟨hput', hy'⟩, ha⟩ := h'
    have hinv := scaleAddr_inv (r := S.dest l.1 l.2) (col_lt hy)
    have hinv' := scaleAddr_inv (r := S.dest l'.1 l'.2) (col_lt hy')
    rw [sn] at ha
    rw [ha] at hinv'
    have hdest : S.dest l'.1 l'.2 = S.dest l.1 l.2 := hinv'.1.symm.trans hinv.1
    exact ⟨(hS.writes_unique (hS.put_writes ⟨hput, rfl⟩) (hS.put_writes ⟨hput', hdest⟩)).1, hinv.2.symm.trans hinv'.2⟩
  have hslot (l : ℕ × ℕ) (y : ℕ) : Exactly
      (if S.Put l.1 l.2 ∧ y < S.H / 32 then [(scaleAddr (S.dest l.1 l.2) y S.sn, S.stage l.1 y)] else [])
      (fun a => (S.Put l.1 l.2 ∧ y < S.H / 32) ∧ scaleAddr (S.dest l.1 l.2) y S.sn = a)
      fun a => (S.sorted.getD (scaleRow a S.sn) none).elim 0 fun l => S.stage l.1 (scaleCol a S.sn) := by
    refine Exactly.single fun h => ?_
    obtain ⟨hrow, hcol⟩ := scaleAddr_inv (r := S.dest l.1 l.2) (col_lt h.2)
    rw [sn, hrow, hcol, List.getD_eq_getElem?_getD, hS.sorted_at (hS.put_iff.mp h.1)]
    rfl
  refine (Exactly.grid List.nodup_range (fun p _ => Exactly.grid List.nodup_range (fun c _ => Exactly.grid (nodup_lanes p)
    (fun l _ => Exactly.grid List.nodup_range (fun i _ => hslot l (c * 32 + i)) fun i _ i' _ a h h' => ?_)
    fun l _ l' _ a h h' => ?_) fun c _ c' _ a h h' => ?_) fun p _ p' _ a h h' => ?_).congr fun a => ?_
  · have := (hunique h h').2
    omega
  · obtain ⟨i, -, h⟩ := h
    obtain ⟨i', -, h'⟩ := h'
    exact (hunique h h').1
  · obtain ⟨l, -, i, hi, h⟩ := h
    obtain ⟨l', -, i', hi', h'⟩ := h'
    have := (hunique h h').2
    rw [List.mem_range] at hi hi'
    omega
  · obtain ⟨c, -, l, hl, i, -, h⟩ := h
    obtain ⟨c', -, l', hl', i', -, h'⟩ := h'
    obtain ⟨rfl, -⟩ := hunique h h'
    exact ((mem_lanes_iff hS.tpp_pos).mp hl).1.symm.trans ((mem_lanes_iff hS.tpp_pos).mp hl').1
  · constructor
    · rintro ⟨p, -, c, -, l, -, i, -, ⟨hput, hy⟩, rfl⟩
      refine ⟨S.dest l.1 l.2, c * 32 + i, ?_, hy, rfl⟩
      rw [List.getD_eq_getElem?_getD, hS.sorted_at (hS.put_iff.mp hput)]
      rfl
    · rintro ⟨r, y, hr, hy, rfl⟩
      obtain ⟨l, hput, rfl⟩ := hS.sorted_isSome hr
      obtain ⟨hp, hl⟩ := hS.mem_programs (hS.put_iff.mp hput)
      have hsplit : y / 32 * 32 + y % 32 = y := by omega
      refine ⟨_, hp, y / 32, List.mem_range.mpr (by omega), l, hl, y % 32, List.mem_range.mpr (by omega), ?_⟩
      rw [hsplit]
      exact ⟨⟨hput, hy⟩, rfl⟩

end RouteSort

/-! ## The route -/

/-- A job of the router: the logits of its tokens, and the E8M0 bytes of their rows as the first launch leaves them. -/
structure RouteJob (α : Type) where
  M : ℕ
  E : ℕ
  K : ℕ
  H : ℕ
  logits : ℕ → ℕ → Option α
  scales : ℕ → ℕ → ℕ

namespace RouteJob
variable {α W : Type} [LinearOrder α] [OrderBot α] (J : RouteJob α) (A : Arith α W) (block : ℕ)

/-- The second launch of `_route`, on what the programs of the first leave of their tokens. -/
def launch : RouteSort W :=
  let slots := J.K + 1
  let e1 := J.E + 1
  let mp := max 8 (2 ^ Nat.clog 2 J.M)
  let row t := gateRow A J.E J.K (J.logits t)
  { M := J.M
    nPad := cdiv (slots * J.M + e1 * block - slots) block * block
    E := J.E
    K := J.K
    H := J.H
    block := block
    mp := mp
    tpp := if mp ≤ 64 then 1 else 4
    tch := min mp 64
    w := fun t => (row t).w
    ids := fun t => (row t).ids
    map := fun t => (row t).map
    stage := J.scales
    zero := A.zero }

/-- What the hooks check of a job and a block size, with enough experts for the slots. -/
structure Eligible : Prop where
  rows_pos : 0 < J.M
  rows_le : J.M ≤ 256
  slots : J.K < 16
  experts : J.E < 1023
  le : J.K ≤ J.E
  block : block ∈ [16, 32, 64, 128]

/-- The expert of a slot: the `K` largest, and the shared one. -/
def route (t k : ℕ) : ℕ := (topK J.E J.K (J.logits t) ++ [J.E]).getD k 0

/-- The slots by expert. -/
def sorted : List (Option (ℕ × ℕ)) := sortedSlots J.M J.K J.E block J.route

/-- The experts of the blocks. -/
def experts : List ℕ := sortedExperts J.M J.K J.E block J.route

/-- A slot as `sorted_ids` has it, or the mock of the padding. -/
def code : Option (ℕ × ℕ) → ℕ
  | some (t, k) => t ||| k <<< 24
  | none => J.M ||| (J.K + 1) <<< 24

/-- The weight of a slot, or of the padding. -/
def weight : Option (ℕ × ℕ) → W
  | some (t, k) => routeWeight A J.E J.K (J.logits t) k
  | none => A.zero

variable {J A block} {t k : ℕ}

omit [LinearOrder α] [OrderBot α] in
lemma Eligible.block_pos (h : J.Eligible block) : 0 < block := by
  have := h.block
  simp only [List.mem_cons, List.not_mem_nil, or_false] at this
  omega

lemma expert_launch (hK : J.K ≤ J.E) (ht : t < J.M) (hk : k ≤ J.K) :
    (J.launch A block).expert t k = (gateRow A J.E J.K (J.logits t)).ids k := by
  rw [RouteSort.expert_of_valid ⟨ht, hk⟩]
  obtain hlt | heq := hk.lt_or_eq
  · exact if_pos hlt
  · rw [heq, gateRow_shared A (J.logits t) hK]
    exact if_neg (lt_irrefl _)

lemma route_eq (hK : J.K ≤ J.E) (ht : t < J.M) (hk : k ≤ J.K) : (J.launch A block).expert t k = J.route t k := by
  rw [expert_launch hK ht hk, route, ← gateRow_ids A (J.logits t) hK, List.getD_eq_getElem?_getD]
  obtain hlt | heq := hk.lt_or_eq
  · rw [List.getElem?_append_left (by simpa using hlt), List.getElem?_map, List.getElem?_range hlt]
    rfl
  · rw [heq, gateRow_shared A (J.logits t) hK, List.getElem?_append_right (by simp), List.length_map, List.length_range,
      Nat.sub_self]
    rfl

variable (A) in
lemma Eligible.ok (h : J.Eligible block) : (J.launch A block).Ok where
  slots := h.slots
  experts := h.experts
  le := h.le
  block_pos := h.block_pos
  tpp_pos := by
    change 0 < if max 8 (2 ^ Nat.clog 2 J.M) ≤ 64 then 1 else 4
    split_ifs
    · decide
    · decide
  tch_pos := lt_min (lt_max_of_lt_left (by decide)) (by decide)
  rows := le_max_of_le_right (Nat.le_pow_clog (by decide) _)
  chunks := by
    -- both are powers of two
    change min (max 8 (2 ^ Nat.clog 2 J.M)) 64 ∣ max 8 (2 ^ Nat.clog 2 J.M)
    have hmax : max 8 (2 ^ Nat.clog 2 J.M) = 2 ^ max 3 (Nat.clog 2 J.M) :=
      ((pow_right_mono₀ (a := 2) (by decide)).map_max (a := 3) (b := Nat.clog 2 J.M)).symm
    have hmin : min (2 ^ max 3 (Nat.clog 2 J.M)) 64 = 2 ^ min (max 3 (Nat.clog 2 J.M)) 6 :=
      ((pow_right_mono₀ (a := 2) (by decide)).map_min (a := max 3 (Nat.clog 2 J.M)) (b := 6)).symm
    rw [hmax, hmin]
    exact pow_dvd_pow 2 (min_le_left _ _)
  room := rfl
  ids_lt t _ k hk := gateRow_ids_lt A (J.logits t) h.le hk
  distinct t ht i hi j hj heq := by
    rw [expert_launch h.le ht hi, expert_launch h.le ht hj] at heq
    exact gateRow_ids_inj A (J.logits t) h.le hi hj heq
  map t ht x _ := by
    rw [show (J.launch A block).map t = (gateRow A J.E J.K (J.logits t)).map from rfl, gateRow_map A (J.logits t) h.le h.slots]
    refine if_congr (exists_congr fun k => and_congr_right fun hk => ?_) rfl rfl
    rw [expert_launch h.le ht hk]

/-- The kernel's routing is that of the largest logits. -/
lemma Eligible.bucket_eq (h : J.Eligible block) : (J.launch A block).bucket = bucketOf J.M J.K J.route := by
  funext e
  refine List.flatMap_congr fun t ht => congrArg _ (List.filter_congr fun k hk => ?_)
  rw [route_eq h.le (List.mem_range.mp ht) (Nat.le_of_lt_succ (List.mem_range.mp hk))]

lemma Eligible.sorted_eq (h : J.Eligible block) : (J.launch A block).sorted = J.sorted block :=
  congrArg (fun b => paddedSort block none b (J.E + 1)) h.bucket_eq

lemma Eligible.experts_eq (h : J.Eligible block) :
    sortedExperts J.M J.K J.E block (J.launch A block).expert = J.experts block :=
  congrArg (fun b => blockKeys block b (J.E + 1)) h.bucket_eq

variable (A)

/-- The two launches leave the sort of the largest logits: the slots by expert with their weights, the experts of the
blocks, and the length, which is within the buffers. -/
theorem route_sorts (h : J.Eligible block) :
    Exactly (J.launch A block).sidStores (· < (J.sorted block).length) (fun r => J.code ((J.sorted block).getD r none)) ∧
    Exactly (J.launch A block).swStores (· < (J.sorted block).length)
      (fun r => J.weight A ((J.sorted block).getD r none)) ∧
    Exactly (J.launch A block).seidStores (· < (J.experts block).length) (fun b => (J.experts block).getD b 0) ∧
    Exactly (J.launch A block).nvStores (· < 2) (fun i => if i = 0 then (J.sorted block).length else J.M) ∧
    (J.sorted block).length ≤ (J.launch A block).nPad := by
  have hS := h.ok A
  rw [← h.sorted_eq (A := A), ← h.experts_eq (A := A)]
  refine ⟨hS.place_exactly (fun _ _ => rfl) rfl, hS.place_exactly (f := J.weight A) (fun l hl => ?_) rfl, hS.seid_exactly,
    hS.nv_exactly h.rows_pos, ?_⟩
  · rw [if_pos hl]
    exact gateRow_w A (J.logits l.1) h.le hl.2
  · rw [hS.length_sorted]
    exact hS.total_le

/-- And each slot's row of scales has the bytes of its token, within the buffer. -/
theorem route_scales (h : J.Eligible block) :
    Exactly (J.launch A block).scaleStores
      (fun a => ∃ r y, ((J.sorted block).getD r none).isSome ∧ y < J.H / 32 ∧ scaleAddr r y (J.launch A block).sn = a)
      (fun a => ((J.sorted block).getD (scaleRow a (J.launch A block).sn) none).elim 0 fun l =>
        J.scales l.1 (scaleCol a (J.launch A block).sn)) ∧
    ∀ r < (J.launch A block).nPad, ∀ y < J.H / 32, scaleAddr r y (J.launch A block).sn <
      ((J.launch A block).nPad + 31) / 32 * 32 * (J.launch A block).sn := by
  have hS := h.ok A
  rw [← h.sorted_eq (A := A)]
  exact ⟨hS.scale_exactly, fun r hr y hy => scaleAddr_lt hr (RouteSort.col_lt (S := J.launch A block) hy)⟩

/-! ## The oracle's contract -/

/-- `_sort_ok`. -/
def sortOk (m slots nPad block shared : ℕ) (ids : ℕ → ℕ → ℕ) (sid seid nv : ℕ → ℕ) : Bool :=
  let total := nv 0
  let tok r := sid r &&& 0xFFFFFF
  let slot r := sid r >>> 24
  let last := slots - 1
  let routed r := if min (slot r) last < last then ids (min (tok r) (m - 1)) (min (slot r) last) else shared
  let real := (List.range total).filter fun r => tok r < m
  let pairs := real.map fun r => tok r * 16 + slot r
  decide (0 < total ∧ total ≤ nPad ∧ total % block = 0 ∧ nv 1 = m) &&
    real.all (fun r => routed r = seid (r / block)) && decide (pairs.length = m * slots) &&
    decide (pairs.dedup.length = pairs.length) &&
    (List.range total).all (fun r => tok r < m || (tok r = m && slot r = slots)) &&
    (List.range (total / block)).all fun b => seid b ≤ shared

variable {A}

lemma decode {t k : ℕ} (ht : t < 2 ^ 24) : (t ||| k <<< 24) &&& 0xFFFFFF = t ∧ (t ||| k <<< 24) >>> 24 = k := by
  rw [Nat.or_comm, ← Nat.shiftLeft_add_eq_or_of_lt ht, Nat.shiftLeft_eq, Nat.shiftRight_eq_div_pow,
    Nat.and_two_pow_sub_one_eq_mod _ 24]
  omega

/-- A place of the sort has a slot or is padding. -/
lemma Eligible.place_cases (h : J.Eligible block) {r : ℕ} (hr : r < (J.sorted block).length) :
    (∃ t k, (J.launch A block).Valid t k ∧ (J.launch A block).dest t k = r ∧ (J.sorted block).getD r none = some (t, k)) ∨
      (J.sorted block).getD r none = none := by
  have hS := h.ok A
  rw [← h.sorted_eq (A := A)] at hr ⊢
  cases hslot : (J.launch A block).sorted.getD r none with
  | none => exact .inr rfl
  | some l =>
    obtain ⟨l', hput, rfl⟩ := hS.sorted_isSome (r := r) (by rw [hslot]; rfl)
    have hv := hS.put_iff.mp hput
    rw [List.getD_eq_getElem?_getD, hS.sorted_at hv] at hslot
    exact .inl ⟨l'.1, l'.2, hv, rfl, hslot ▸ rfl⟩

/-- The block of a slot has the slot's expert. -/
lemma Eligible.block_expert (h : J.Eligible block) (hv : (J.launch A block).Valid t k) :
    (J.launch A block).dest t k / block < (J.experts block).length ∧
      (J.experts block).getD ((J.launch A block).dest t k / block) 0 = (J.launch A block).expert t k := by
  have hS := h.ok A
  have hlt := hS.block_lt hv
  have hat := getElem?_blockKeys (J.launch A block).bucket (Nat.lt_succ_of_le (hS.expert_le hv)) hlt
  have hblock : (J.launch A block).dest t k / block = _ := hS.block_eq hv
  rw [← h.experts_eq (A := A), hblock]
  refine ⟨(List.getElem?_eq_some_iff.mp hat).1, ?_⟩
  rw [List.getD_eq_getElem?_getD]
  exact congrArg (·.getD 0) hat

/-- What the launch leaves in its buffers. -/
structure Leaves (J : RouteJob α) (block : ℕ) (sid seid nv : ℕ → ℕ) : Prop where
  sid : ∀ r < (J.sorted block).length, sid r = J.code ((J.sorted block).getD r none)
  seid : ∀ b < (J.experts block).length, seid b = (J.experts block).getD b 0
  total : nv 0 = (J.sorted block).length
  rows : nv 1 = J.M

/-- The places that `_sort_ok` counts. -/
def real (J : RouteJob α) (block : ℕ) (sid : ℕ → ℕ) : List ℕ :=
  (List.range (J.sorted block).length).filter fun r => sid r &&& 0xFFFFFF < J.M

section Leaves
variable {sid seid nv : ℕ → ℕ}

lemma Leaves.read (hl : Leaves J block sid seid nv) (h : J.Eligible block) (A : Arith α W) {r : ℕ}
    (hr : r < (J.sorted block).length) :
    (∃ t k, (J.launch A block).Valid t k ∧ (J.launch A block).dest t k = r ∧ sid r &&& 0xFFFFFF = t ∧
      sid r >>> 24 = k) ∨ sid r &&& 0xFFFFFF = J.M ∧ sid r >>> 24 = J.K + 1 := by
  have hM := h.rows_le
  have hv := hl.sid r hr
  obtain ⟨t, k, hval, hdest, hslot⟩ | hslot := h.place_cases (A := A) hr
  · have ht : t < J.M := hval.1
    rw [hslot, code] at hv
    rw [hv]
    exact .inl ⟨t, k, hval, hdest, decode (by omega)⟩
  · rw [hslot, code] at hv
    rw [hv]
    exact .inr (decode (by omega))

lemma Leaves.mem_real_iff (hl : Leaves J block sid seid nv) (h : J.Eligible block) (A : Arith α W) {r : ℕ} :
    r ∈ J.real block sid ↔ ∃ t k, (J.launch A block).Valid t k ∧ (J.launch A block).dest t k = r ∧
      sid r &&& 0xFFFFFF = t ∧ sid r >>> 24 = k := by
  have hS := h.ok A
  rw [real, List.mem_filter, List.mem_range, decide_eq_true_eq]
  constructor
  · rintro ⟨hr, hlt⟩
    obtain hslot | ⟨htok, -⟩ := hl.read h A hr
    · exact hslot
    · rw [htok] at hlt
      exact absurd hlt (lt_irrefl _)
  · rintro ⟨t, k, hv, rfl, htok, -⟩
    constructor
    · rw [← h.sorted_eq (A := A)]
      exact (List.getElem?_eq_some_iff.mp (hS.sorted_at hv)).1
    · rw [htok]
      exact hv.1

/-- Every slot is counted. -/
lemma Leaves.exists_real (hl : Leaves J block sid seid nv) (h : J.Eligible block) (A : Arith α W)
    (hv : (J.launch A block).Valid t k) : ∃ r ∈ J.real block sid, sid r &&& 0xFFFFFF = t ∧ sid r >>> 24 = k := by
  have hS := h.ok A
  have hat := hS.sorted_at hv
  rw [h.sorted_eq] at hat
  have hcode := hl.sid _ (List.getElem?_eq_some_iff.mp hat).1
  rw [List.getD_eq_getElem?_getD, hat, Option.getD_some, code] at hcode
  have ht : t < J.M := hv.1
  have hM := h.rows_le
  have hword : sid ((J.launch A block).dest t k) &&& 0xFFFFFF = t ∧ sid ((J.launch A block).dest t k) >>> 24 = k := by
    rw [hcode]
    exact decode (by omega)
  exact ⟨_, (hl.mem_real_iff h A).mpr ⟨t, k, hv, rfl, hword⟩, hword⟩

/-- The tokens and slots that are counted are all there are, each once. -/
lemma Leaves.pairs_perm (hl : Leaves J block sid seid nv) (h : J.Eligible block) (A : Arith α W) :
    ((J.real block sid).map fun r => (sid r &&& 0xFFFFFF) * 16 + sid r >>> 24).Perm
      ((List.range J.M ×ˢ List.range (J.K + 1)).map fun l => l.1 * 16 + l.2) := by
  have h16 := h.slots
  refine (List.perm_ext_iff_of_nodup ((List.nodup_range.filter _).map_on fun r hr r' hr' heq => ?_)
    ((List.nodup_range.product List.nodup_range).map_on fun l hin l' hin' heq => ?_)).mpr fun x => ?_
  · obtain ⟨t, k, hv, hdest, htok, hslot⟩ := (hl.mem_real_iff h A).mp hr
    obtain ⟨t', k', hv', hdest', htok', hslot'⟩ := (hl.mem_real_iff h A).mp hr'
    have hk : k ≤ J.K := hv.2
    have hk' : k' ≤ J.K := hv'.2
    rw [htok, hslot, htok', hslot'] at heq
    obtain ⟨rfl, rfl⟩ : t = t' ∧ k = k' := by omega
    exact hdest.symm.trans hdest'
  · have hk := List.mem_range.mp (List.mem_product.mp hin).2
    have hk' := List.mem_range.mp (List.mem_product.mp hin').2
    exact Prod.ext (by omega) (by omega)
  · rw [List.mem_map, List.mem_map]
    constructor
    · rintro ⟨r, hr, rfl⟩
      obtain ⟨t, k, hv, -, htok, hslot⟩ := (hl.mem_real_iff h A).mp hr
      refine ⟨(t, k), List.mem_product.mpr ⟨List.mem_range.mpr hv.1, List.mem_range.mpr (Nat.lt_succ_of_le hv.2)⟩, ?_⟩
      rw [htok, hslot]
    · rintro ⟨l, hin, rfl⟩
      obtain ⟨ht, hk⟩ := List.mem_product.mp hin
      obtain ⟨r, hr, htok, hslot⟩ := hl.exists_real h A (t := l.1) (k := l.2)
        ⟨List.mem_range.mp ht, Nat.le_of_lt_succ (List.mem_range.mp hk)⟩
      exact ⟨r, hr, by rw [htok, hslot]⟩

/-- The expert of a slot's block is the one that the ids have. -/
lemma Leaves.routed (hl : Leaves J block sid seid nv) (h : J.Eligible block) (hv : (J.launch A block).Valid t k) :
    (if min k J.K < J.K then (J.launch A block).ids (min t (J.M - 1)) (min k J.K) else J.E) =
      seid ((J.launch A block).dest t k / block) := by
  obtain ⟨hlt, hexpert⟩ := h.block_expert hv
  have ht : t < J.M := hv.1
  have hk : k ≤ J.K := hv.2
  rw [hl.seid _ hlt, hexpert, RouteSort.expert_of_valid hv, Nat.min_eq_left hk, Nat.min_eq_left (by omega)]
  rfl

end Leaves

/-- In whatever order the programs store, the oracle's contract holds of what they leave. -/
theorem sort_ok (h : J.Eligible block) {oSid oSeid oNv : List (ℕ × ℕ)}
    (hoSid : oSid.Perm (J.launch A block).sidStores) (hoSeid : oSeid.Perm (J.launch A block).seidStores)
    (hoNv : oNv.Perm (J.launch A block).nvStores) (mSid mSeid mNv : ℕ → ℕ) :
    sortOk J.M (J.K + 1) (J.launch A block).nPad block J.E (J.launch A block).ids (storeAll mSid oSid)
      (storeAll mSeid oSeid) (storeAll mNv oNv) = true := by
  have hS := h.ok A
  have hblock := h.block_pos
  obtain ⟨hsid, -, hseid, hnv, hroom⟩ := route_sorts A h
  have hl : Leaves J block (storeAll mSid oSid) (storeAll mSeid oSeid) (storeAll mNv oNv) :=
    ⟨fun r hr => (hsid.memory hoSid mSid r).1 hr, fun b hb => (hseid.memory hoSeid mSeid b).1 hb,
      (hnv.memory hoNv mNv 0).1 (by decide), (hnv.memory hoNv mNv 1).1 (by decide)⟩
  generalize storeAll mSid oSid = sid, storeAll mSeid oSeid = seid, storeAll mNv oNv = nv at hl ⊢
  have hlen : (J.sorted block).length = block * (J.experts block).length := by
    rw [← h.sorted_eq (A := A), ← h.experts_eq (A := A), sortedExperts, length_blockKeys]
    exact hS.length_sorted
  have hpos : 0 < (J.sorted block).length := by
    obtain ⟨r, hr, -⟩ := hl.exists_real h A (t := 0) (k := 0) ⟨h.rows_pos, Nat.zero_le _⟩
    exact Nat.zero_lt_of_lt (List.mem_range.mp (List.mem_filter.mp hr).1)
  have hperm := hl.pairs_perm h A
  have hcount : ((J.real block sid).map fun r => (sid r &&& 0xFFFFFF) * 16 + sid r >>> 24).length = J.M * (J.K + 1) := by
    rw [hperm.length_eq, List.length_map, List.length_product, List.length_range, List.length_range]
  have hnodup : ((J.real block sid).map fun r => (sid r &&& 0xFFFFFF) * 16 + sid r >>> 24).Nodup := by
    refine hperm.nodup_iff.mpr ((List.nodup_range.product List.nodup_range).map_on fun l hin l' hin' heq => ?_)
    have hk := List.mem_range.mp (List.mem_product.mp hin).2
    have hk' := List.mem_range.mp (List.mem_product.mp hin').2
    have h16 := h.slots
    exact Prod.ext (by omega) (by omega)
  simp only [sortOk, hl.total, hl.rows, Bool.and_eq_true, decide_eq_true_eq, List.all_eq_true]
  refine ⟨⟨⟨⟨⟨⟨hpos, hroom, ?_, trivial⟩, fun r hr => ?_⟩, hcount⟩, ?_⟩, fun r hr => ?_⟩, fun b hb => ?_⟩
  · rw [hlen, Nat.mul_mod_right]
  · obtain ⟨t, k, hv, rfl, htok, hslot⟩ := (hl.mem_real_iff h A).mp hr
    rw [htok, hslot]
    exact hl.routed h hv
  · exact congrArg List.length hnodup.dedup
  · rw [Bool.or_eq_true, Bool.and_eq_true, decide_eq_true_eq, decide_eq_true_eq, decide_eq_true_eq]
    obtain ⟨t, k, hv, -, htok, -⟩ | hpad := hl.read h A (List.mem_range.mp hr)
    · rw [htok]
      exact .inl hv.1
    · exact .inr hpad
  · rw [List.mem_range, hlen, Nat.mul_div_cancel_left _ hblock] at hb
    rw [hl.seid b hb, List.getD_eq_getElem?_getD, List.getElem?_eq_getElem hb, Option.getD_some]
    obtain ⟨e, he, hmem⟩ := List.mem_flatMap.mp (List.getElem_mem hb)
    rw [List.eq_of_mem_replicate hmem]
    exact Nat.le_of_lt_succ (List.mem_range.mp he)

/-! ## A small job -/

end RouteJob

/-- On equal logits `_exp` is 1, and the sigmoid of 0 is a half. -/
def evenArith : Arith (WithBot ℤ) Rat where
  exp _ _ := mkRat 1 1
  sigmoid _ := mkRat 1 2
  zero := mkRat 0 1
  one := mkRat 1 1
  add := Rat.add
  mul := Rat.mul
  inv := Rat.inv
  isZero x := x.num == 0

/-- Three tokens with equal logits, for two of four experts. -/
def evenJob : RouteJob (WithBot ℤ) where
  M := 3
  E := 4
  K := 2
  H := 512
  logits _ _ := some (WithBot.some 0)
  scales t y := t + y

lemma eligible_even : evenJob.Eligible 16 :=
  ⟨by decide, by decide, by decide, by decide, by decide, by decide⟩

theorem route_sorts_even : Exactly (evenJob.launch evenArith 16).sidStores (· < (evenJob.sorted 16).length)
    (fun r => evenJob.code ((evenJob.sorted 16).getD r none)) :=
  (RouteJob.route_sorts evenArith eligible_even).1

theorem route_scales_even : Exactly (evenJob.launch evenArith 16).scaleStores
    (fun a => ∃ r y, ((evenJob.sorted 16).getD r none).isSome ∧ y < evenJob.H / 32 ∧
      scaleAddr r y (evenJob.launch evenArith 16).sn = a)
    (fun a => ((evenJob.sorted 16).getD (scaleRow a (evenJob.launch evenArith 16).sn) none).elim 0 fun l =>
      evenJob.scales l.1 (scaleCol a (evenJob.launch evenArith 16).sn)) :=
  (RouteJob.route_scales evenArith eligible_even).1

theorem sort_ok_even : RouteJob.sortOk 3 3 (evenJob.launch evenArith 16).nPad 16 4 (evenJob.launch evenArith 16).ids
    (storeAll (fun _ => 0) (evenJob.launch evenArith 16).sidStores)
    (storeAll (fun _ => 0) (evenJob.launch evenArith 16).seidStores)
    (storeAll (fun _ => 0) (evenJob.launch evenArith 16).nvStores) = true :=
  RouteJob.sort_ok eligible_even (.refl _) (.refl _) (.refl _) _ _ _

end SuffixHybrid.MoeRoute
