import Mathlib.Algebra.BigOperators.Intervals
import Mathlib.Algebra.BigOperators.Ring.Finset
import Mathlib.Algebra.Order.BigOperators.Group.Finset
import SuffixHybrid.Lib.Grid

/-!
# Padded buckets

Parts of given sizes stand one after the other: each place is in exactly one of them (`exists_part`, `part_unique`).
Buckets that are padded to whole blocks are such parts, and so are the blocks of each bucket (`paddedSort`,
`blockKeys`).
-/

namespace Lib
open Finset
variable {α : Type}

/-! ## Parts -/

section Parts
variable {s : ℕ → ℕ}

lemma exists_part {n r : ℕ} (h : r < ∑ i ∈ range n, s i) :
    ∃ e < n, ∃ j < s e, r = ∑ i ∈ range e, s i + j := by
  induction n with
  | zero => cases h
  | succ n ih =>
    rw [sum_range_succ] at h
    by_cases hr : r < ∑ i ∈ range n, s i
    · obtain ⟨e, he, hj⟩ := ih hr
      exact ⟨e, by omega, hj⟩
    · exact ⟨n, Nat.lt_succ_self n, r - ∑ i ∈ range n, s i, by omega, by omega⟩

/-- A place in a part is before the next part. -/
lemma part_lt {e e' j : ℕ} (hj : j < s e) (he : e < e') : ∑ i ∈ range e, s i + j < ∑ i ∈ range e', s i := by
  have hle : ∑ i ∈ range (e + 1), s i ≤ ∑ i ∈ range e', s i :=
    sum_le_sum_of_subset (range_subset_range.mpr he)
  rw [sum_range_succ] at hle
  omega

lemma part_unique {e e' j j' : ℕ} (hj : j < s e) (hj' : j' < s e')
    (h : ∑ i ∈ range e, s i + j = ∑ i ∈ range e', s i + j') : e = e' ∧ j = j' := by
  obtain hlt | rfl | hgt := lt_trichotomy e e'
  · have := part_lt hj hlt
    omega
  · exact ⟨rfl, by omega⟩
  · have := part_lt hj' hgt
    omega

lemma length_flatMap_range (part : ℕ → List α) (n : ℕ) :
    ((List.range n).flatMap part).length = ∑ i ∈ range n, (part i).length := by
  induction n with
  | zero => rfl
  | succ n ih => rw [List.range_succ, List.flatMap_append, List.length_append, ih, sum_range_succ, List.flatMap_singleton]

lemma getElem?_flatMap_range (part : ℕ → List α) {n e r : ℕ} (he : e < n) (hr : r < (part e).length) :
    ((List.range n).flatMap part)[∑ i ∈ range e, (part i).length + r]? = (part e)[r]? := by
  induction n with
  | zero => cases he
  | succ n ih =>
    rw [List.range_succ, List.flatMap_append, List.flatMap_singleton]
    obtain hlt | rfl := Nat.lt_succ_iff_lt_or_eq.mp he
    · have hin := part_lt (s := fun i => (part i).length) hr hlt
      rw [List.getElem?_append_left (by rwa [length_flatMap_range]), ih hlt]
    · rw [List.getElem?_append_right (by rw [length_flatMap_range]; omega), length_flatMap_range, Nat.add_sub_cancel_left]

end Parts

/-! ## Buckets -/

section Buckets
variable (B : ℕ) (pad : α) (bucket : ℕ → List α)

/-- A bucket, padded to whole blocks. -/
def padded (l : List α) : List α := l ++ List.replicate (B * cdiv l.length B - l.length) pad

/-- The first buckets, each padded. -/
def paddedSort (n : ℕ) : List α := (List.range n).flatMap fun e => padded B pad (bucket e)

/-- The buckets of the blocks. -/
def blockKeys (n : ℕ) : List ℕ := (List.range n).flatMap fun e => List.replicate (cdiv (bucket e).length B) e

/-- The blocks before a bucket. -/
def blockStart (e : ℕ) : ℕ := ∑ i ∈ range e, cdiv (bucket i).length B

variable {B}

lemma mul_cdiv_lt (hB : 0 < B) (a : ℕ) : B * cdiv a B < a + B := by
  have hle : B * cdiv a B ≤ a + B - 1 := Nat.mul_div_le (a + B - 1) B
  omega

lemma length_padded (hB : 0 < B) (l : List α) : (padded B pad l).length = B * cdiv l.length B := by
  have hle := le_mul_cdiv (a := l.length) hB
  rw [padded, List.length_append, List.length_replicate]
  omega

lemma sum_length_padded (hB : 0 < B) (e : ℕ) :
    ∑ i ∈ range e, (padded B pad (bucket i)).length = B * blockStart B bucket e := by
  rw [blockStart, mul_sum]
  exact sum_congr rfl fun i _ => length_padded pad hB (bucket i)

lemma length_paddedSort (hB : 0 < B) (n : ℕ) : (paddedSort B pad bucket n).length = B * blockStart B bucket n := by
  rw [paddedSort, length_flatMap_range, sum_length_padded pad bucket hB]

variable {n e r : ℕ}

/-- An element of a bucket has its place. -/
lemma getElem?_paddedSort (hB : 0 < B) (he : e < n) (hr : r < (bucket e).length) :
    (paddedSort B pad bucket n)[B * blockStart B bucket e + r]? = (bucket e)[r]? := by
  have hlt : r < (padded B pad (bucket e)).length := by
    rw [padded, List.length_append]
    omega
  rw [← sum_length_padded pad bucket hB, paddedSort, getElem?_flatMap_range (fun e => padded B pad (bucket e)) he hlt, padded,
    List.getElem?_append_left hr]

/-- Behind the elements the last block is padded. -/
lemma getElem?_paddedSort_of_le (hB : 0 < B) (he : e < n) (hlo : (bucket e).length ≤ r)
    (hhi : r < B * cdiv (bucket e).length B) :
    (paddedSort B pad bucket n)[B * blockStart B bucket e + r]? = some pad := by
  have hlt : r < (padded B pad (bucket e)).length := by rwa [length_padded pad hB]
  rw [← sum_length_padded pad bucket hB, paddedSort, getElem?_flatMap_range (fun e => padded B pad (bucket e)) he hlt, padded,
    List.getElem?_append_right hlo, List.getElem?_replicate_of_lt (by omega)]

lemma length_blockKeys (n : ℕ) : (blockKeys B bucket n).length = blockStart B bucket n := by
  rw [blockKeys, length_flatMap_range, blockStart]
  exact sum_congr rfl fun i _ => List.length_replicate

lemma getElem?_blockKeys (he : e < n) (hr : r < cdiv (bucket e).length B) :
    (blockKeys B bucket n)[blockStart B bucket e + r]? = some e := by
  have hsum : ∑ i ∈ range e, (List.replicate (cdiv (bucket i).length B) i).length = blockStart B bucket e :=
    sum_congr rfl fun i _ => List.length_replicate
  rw [← hsum, blockKeys, getElem?_flatMap_range (fun e => List.replicate (cdiv (bucket e).length B) e) he
    (by rwa [List.length_replicate]), List.getElem?_replicate_of_lt hr]

/-- Each place is at an element or at a pad of some bucket. -/
lemma exists_slot (h : r < B * blockStart B bucket n) :
    ∃ e < n, ∃ j < B * cdiv (bucket e).length B, r = B * blockStart B bucket e + j := by
  rw [blockStart, mul_sum] at h
  obtain ⟨e, he, j, hj, rfl⟩ := exists_part h
  exact ⟨e, he, j, hj, by rw [blockStart, mul_sum]⟩

lemma slot_lt {j : ℕ} (he : e < n) (hj : j < B * cdiv (bucket e).length B) :
    B * blockStart B bucket e + j < B * blockStart B bucket n := by
  rw [blockStart, blockStart, mul_sum, mul_sum]
  exact part_lt (s := fun i => B * cdiv (bucket i).length B) hj he

lemma slot_unique {e' j j' : ℕ} (hj : j < B * cdiv (bucket e).length B) (hj' : j' < B * cdiv (bucket e').length B)
    (h : B * blockStart B bucket e + j = B * blockStart B bucket e' + j') : e = e' ∧ j = j' := by
  rw [blockStart, blockStart, mul_sum, mul_sum] at h
  exact part_unique (s := fun i => B * cdiv (bucket i).length B) hj hj' h

/-- Padding adds less than a block to each bucket. -/
lemma mul_blockStart_le (hB : 0 < B) (n : ℕ) :
    B * blockStart B bucket n ≤ ∑ i ∈ range n, (bucket i).length + n * (B - 1) := by
  have hle : ∀ i ∈ range n, B * cdiv (bucket i).length B ≤ (bucket i).length + (B - 1) := fun i _ => by
    have hlt := mul_cdiv_lt hB (bucket i).length
    omega
  rw [blockStart, mul_sum]
  refine (sum_le_sum hle).trans_eq ?_
  rw [sum_add_distrib, sum_const, card_range, smul_eq_mul]

end Buckets

end Lib
