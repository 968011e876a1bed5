import Mathlib.Data.List.DropRight
import Mathlib.Tactic.Common

/-!
# Checked slices

Slicing, indexing and subtraction as a checked language does them: the result is `none` exactly
where the operation would abort. `windows n l` lists the contiguous runs of `n` elements of `l`.
-/

namespace Lib
variable {α : Type}

/-- `l[..n]`. -/
def sliceTo (l : List α) (n : ℕ) : Option (List α) :=
  if n ≤ l.length then some (l.take n) else none

/-- `l[n..]`. -/
def sliceFrom (l : List α) (n : ℕ) : Option (List α) :=
  if n ≤ l.length then some (l.drop n) else none

/-- `l[i..j]`. -/
def slice (l : List α) (i j : ℕ) : Option (List α) :=
  if i ≤ j ∧ j ≤ l.length then some ((l.drop i).take (j - i)) else none

/-- `a - b` on unsigned integers. -/
def checkedSub (a b : ℕ) : Option ℕ :=
  if b ≤ a then some (a - b) else none

@[simp] lemma sliceTo_of_le {l : List α} {n : ℕ} (h : n ≤ l.length) :
    sliceTo l n = some (l.take n) := by
  simp [sliceTo, h]

@[simp] lemma sliceFrom_of_le {l : List α} {n : ℕ} (h : n ≤ l.length) :
    sliceFrom l n = some (l.drop n) := by
  simp [sliceFrom, h]

@[simp] lemma sliceFrom_sub (l : List α) (n : ℕ) :
    sliceFrom l (l.length - n) = some (l.drop (l.length - n)) :=
  sliceFrom_of_le (Nat.sub_le _ _)

lemma slice_of_le {l : List α} {i j : ℕ} (h : i ≤ j) (h' : j ≤ l.length) :
    slice l i j = some ((l.drop i).take (j - i)) := by
  simp [slice, h, h']

lemma slice_eq_some {l m : List α} {i j : ℕ} :
    slice l i j = some m ↔ i ≤ j ∧ j ≤ l.length ∧ (l.drop i).take (j - i) = m := by
  simp [slice, and_assoc]

@[simp] lemma checkedSub_of_le {a b : ℕ} (h : b ≤ a) : checkedSub a b = some (a - b) := by
  simp [checkedSub, h]

lemma getElem?_of_take {l : List α} {n i : ℕ} {a : α} (h : (l.take n)[i]? = some a) :
    l[i]? = some a := by
  rw [List.getElem?_take] at h
  split at h
  · exact h
  · exact absurd h (by simp)

/-- The run of `n` elements that starts at position `i`. -/
def window (n : ℕ) (l : List α) (i : ℕ) : List α := (l.drop i).take n

/-- The runs of `n` elements, in order of their position. -/
def windows (n : ℕ) (l : List α) : List (List α) :=
  (List.range (l.length + 1 - n)).map (window n l)

lemma mem_windows {n : ℕ} {l key : List α} :
    key ∈ windows n l ↔ ∃ i, i + n ≤ l.length ∧ window n l i = key := by
  constructor
  · intro h
    obtain ⟨i, hi, rfl⟩ := List.mem_map.mp h
    exact ⟨i, by have := List.mem_range.mp hi; omega, rfl⟩
  · rintro ⟨i, hi, rfl⟩
    exact List.mem_map.mpr ⟨i, List.mem_range.mpr (by omega), rfl⟩

/-- A list flattened from rows of one width, read back at one row. -/
lemma slice_flatten {w : ℕ} {rows : List (List α)} (hw : ∀ r ∈ rows, r.length = w) {i c : ℕ}
    {row : List α} (hi : rows[i]? = some row) (hc : c ≤ w) :
    slice rows.flatten (i * w) (i * w + c) = some (row.take c) := by
  induction rows generalizing i with
  | nil => simp at hi
  | cons r rows ih =>
    have hr : r.length = w := hw r (by simp)
    have hrest : ∀ r ∈ rows, r.length = w := fun r' h => hw r' (by simp [h])
    cases i with
    | zero =>
      have e : r = row := by simpa using hi
      subst e
      rw [slice_of_le (by omega) (by simp; omega)]
      simp only [Nat.zero_mul, List.drop_zero, Nat.zero_add, Nat.sub_zero, List.flatten_cons]
      rw [List.take_append_of_le_length (by omega)]
    | succ i =>
      obtain ⟨_, hlen, heq⟩ := slice_eq_some.mp (ih hrest (i := i) (by simpa using hi))
      refine slice_eq_some.mpr ⟨by omega, ?_, ?_⟩
      · rw [List.flatten_cons, List.length_append, Nat.succ_mul]
        omega
      · rw [List.flatten_cons, Nat.succ_mul, ← heq, ← hr, Nat.add_comm _ r.length,
          List.drop_length_add_append]
        congr 1
        omega

/-- The entry of a row and a column, in the rows one after the other. -/
lemma getElem?_flatten {n : ℕ} {rows : List (List α)} (h : ∀ row ∈ rows, row.length = n) (i : ℕ)
    {col : ℕ} (hcol : col < n) : rows.flatten[i * n + col]? = rows[i]?.bind fun row => row[col]? := by
  induction rows generalizing i with
  | nil => rfl
  | cons row rows ih =>
    have hlen := h row List.mem_cons_self
    have hrest := ih fun row' hrow' => h row' (List.mem_cons_of_mem _ hrow')
    rw [List.flatten_cons]
    cases i with
    | zero =>
      rw [Nat.zero_mul, Nat.zero_add, List.getElem?_append_left (hlen.symm ▸ hcol)]
      rfl
    | succ i =>
      have hge : row.length ≤ (i + 1) * n + col := by
        rw [hlen, Nat.succ_mul]
        omega
      rw [List.getElem?_append_right hge, hlen, Nat.succ_mul, List.getElem?_cons_succ, ← hrest i]
      congr 1
      omega

end Lib
