import Mathlib.Algebra.BigOperators.Intervals
import Mathlib.Data.List.Perm.Basic
import Mathlib.Tactic.Common

/-!
# A flat buffer

`place` lays blocks out one after the other in a buffer. A sum over the buffer is the sum over its blocks
(`sum_place`), and writing each block changes each place once (`fillAll_at`).
-/

namespace Lib

open Finset

variable {κ α M : Type} (size : κ → ℕ)

/-- The blocks with the places where they start, from `a` on. -/
def place : ℕ → List κ → List (κ × ℕ)
  | _, [] => []
  | a, k :: ks => (k, a) :: place (a + size k) ks

/-- The length of the blocks together. -/
def extent (ks : List κ) : ℕ := (ks.map size).sum

/-- Write a block, with `w` of the place in the block and the old value. -/
def fill (w : κ → ℕ → α → α) (d : ℕ → α) (s : κ × ℕ) (p : ℕ) : α :=
  if s.2 ≤ p ∧ p < s.2 + size s.1 then w s.1 (p - s.2) (d p) else d p

/-- Write all blocks. -/
def fillAll (w : κ → ℕ → α → α) (d : ℕ → α) (ss : List (κ × ℕ)) : ℕ → α := ss.foldl (fill size w) d

variable {size}

@[simp] lemma extent_nil : extent size [] = 0 := rfl

@[simp] lemma extent_cons (k : κ) (ks : List κ) : extent size (k :: ks) = size k + extent size ks := rfl

@[simp] lemma place_nil (a : ℕ) : place size a [] = [] := rfl

@[simp] lemma place_cons (a : ℕ) (k : κ) (ks : List κ) :
    place size a (k :: ks) = (k, a) :: place size (a + size k) ks := rfl

lemma fillAll_cons (w : κ → ℕ → α → α) (d : ℕ → α) (s : κ × ℕ) (ss : List (κ × ℕ)) :
    fillAll size w d (s :: ss) = fillAll size w (fill size w d s) ss := rfl

lemma fill_of_mem (w : κ → ℕ → α → α) (d : ℕ → α) {s : κ × ℕ} {p : ℕ} (h : s.2 ≤ p ∧ p < s.2 + size s.1) :
    fill size w d s p = w s.1 (p - s.2) (d p) := if_pos h

lemma fill_of_not_mem (w : κ → ℕ → α → α) (d : ℕ → α) {s : κ × ℕ} {p : ℕ} (h : ¬(s.2 ≤ p ∧ p < s.2 + size s.1)) :
    fill size w d s p = d p := if_neg h

lemma extent_append (ks ks' : List κ) : extent size (ks ++ ks') = extent size ks + extent size ks' := by
  simp [extent]

lemma place_append (a : ℕ) (ks ks' : List κ) :
    place size a (ks ++ ks') = place size a ks ++ place size (a + extent size ks) ks' := by
  induction ks generalizing a with
  | nil => rfl
  | cons k ks ih => rw [List.cons_append, place_cons, ih, place_cons, List.cons_append, extent_cons, ← Nat.add_assoc]

lemma map_place (size : κ → ℕ) (a : ℕ) (ks : List κ) : (place size a ks).map Prod.fst = ks := by
  induction ks generalizing a with
  | nil => rfl
  | cons k ks ih => rw [place_cons, List.map_cons, ih]

/-- A block lies within the buffer. -/
lemma bounds_place {a : ℕ} {ks : List κ} {s : κ × ℕ} (h : s ∈ place size a ks) :
    a ≤ s.2 ∧ s.2 + size s.1 ≤ a + extent size ks := by
  induction ks generalizing a with
  | nil => cases h
  | cons k ks ih =>
    rw [extent_cons]
    obtain rfl | h := List.mem_cons.mp h
    · exact ⟨le_rfl, Nat.add_le_add_left (Nat.le_add_right _ _) a⟩
    · obtain ⟨hlo, hhi⟩ := ih h
      omega

/-- The sum over the buffer. -/
lemma sum_place [AddCommMonoid M] (F : ℕ → M) (a : ℕ) (ks : List κ) :
    ∑ p ∈ Ico a (a + extent size ks), F p =
      ((place size a ks).map fun s => ∑ i ∈ range (size s.1), F (s.2 + i)).sum := by
  induction ks generalizing a with
  | nil => simp
  | cons k ks ih =>
    rw [place_cons, List.map_cons, List.sum_cons, ← ih, extent_cons, ← Nat.add_assoc,
      ← sum_Ico_consecutive F (Nat.le_add_right a (size k)) (Nat.le_add_right _ _),
      sum_Ico_eq_sum_range F a (a + size k), Nat.add_sub_cancel_left]

/-- What lies before the buffer stays. -/
lemma fillAll_before (w : κ → ℕ → α → α) (d : ℕ → α) {a p : ℕ} (hp : p < a) (ks : List κ) :
    fillAll size w d (place size a ks) p = d p := by
  induction ks generalizing a d with
  | nil => rfl
  | cons k ks ih =>
    rw [place_cons, fillAll_cons, ih _ (by omega), fill_of_not_mem _ _ (by dsimp only; omega)]

/-- A place in a block is written once. -/
lemma fillAll_at (w : κ → ℕ → α → α) (d : ℕ → α) {a : ℕ} {ks : List κ} {s : κ × ℕ} (h : s ∈ place size a ks)
    {i : ℕ} (hi : i < size s.1) : fillAll size w d (place size a ks) (s.2 + i) = w s.1 i (d (s.2 + i)) := by
  induction ks generalizing a d with
  | nil => cases h
  | cons k ks ih =>
    rw [place_cons, fillAll_cons]
    obtain rfl | h := List.mem_cons.mp h
    · rw [fillAll_before w _ (Nat.add_lt_add_left hi a),
        fill_of_mem _ _ ⟨Nat.le_add_right a i, Nat.add_lt_add_left hi a⟩, Nat.add_sub_cancel_left]
    · obtain ⟨hlo, -⟩ := bounds_place h
      have hout : ¬(a ≤ s.2 + i ∧ s.2 + i < a + size k) := by omega
      rw [ih _ h, fill_of_not_mem _ _ hout]

/-- The block of a key starts where it is found. -/
lemma lookup_place [BEq κ] [LawfulBEq κ] (size : κ → ℕ) {a : ℕ} {ks : List κ} {k : κ} (h : k ∈ ks) :
    ∃ o, (place size a ks).lookup k = some o ∧ (k, o) ∈ place size a ks := by
  induction ks generalizing a with
  | nil => cases h
  | cons k' ks ih =>
    rw [place_cons, List.lookup_cons]
    by_cases hk : k = k'
    · subst hk
      exact ⟨a, by rw [beq_self_eq_true], List.mem_cons_self⟩
    · obtain ⟨o, ho, hmem⟩ := @ih (a + size k') ((List.mem_cons.mp h).resolve_left hk)
      exact ⟨o, by rw [beq_eq_false_iff_ne.mpr hk, ho], List.mem_cons_of_mem _ hmem⟩

/-- The only block of a key is the one that is found. -/
lemma lookup_of_mem_place [BEq κ] [LawfulBEq κ] {a : ℕ} {ks : List κ} (hnodup : ks.Nodup) {s : κ × ℕ}
    (h : s ∈ place size a ks) : (place size a ks).lookup s.1 = some s.2 := by
  induction ks generalizing a with
  | nil => cases h
  | cons k ks ih =>
    obtain ⟨hk, hnodup⟩ := List.nodup_cons.mp hnodup
    rw [place_cons, List.lookup_cons]
    obtain rfl | h := List.mem_cons.mp h
    · rw [beq_self_eq_true]
    · have hne : s.1 ≠ k := fun he => hk (by
        rw [← he, ← map_place size (a + size k) ks]
        exact List.mem_map_of_mem h)
      rw [beq_eq_false_iff_ne.mpr hne]
      exact ih hnodup h

end Lib
