import Mathlib.Data.List.TakeDrop
import Mathlib.Tactic.Common

/-!
# The longest common prefix

`lcp l m` is the length of the longest common prefix of two lists. It is the only `n` up to which
they agree and at which they differ or one of them ends (`lcp_eq`).
-/

namespace Lib
variable {α : Type} [DecidableEq α]

/-- The length of the longest common prefix. -/
def lcp : List α → List α → ℕ
  | a :: l, b :: m => if a = b then lcp l m + 1 else 0
  | _, _ => 0

@[simp] lemma lcp_nil_left (m : List α) : lcp [] m = 0 := rfl

@[simp] lemma lcp_nil_right (l : List α) : lcp l [] = 0 := by
  cases l <;> rfl

lemma lcp_le_left (l m : List α) : lcp l m ≤ l.length := by
  induction l, m using lcp.induct with
  | case1 l b m ih =>
    simp only [lcp, if_true, List.length_cons]
    omega
  | case2 a l b m h => simp [lcp, h]
  | case3 l m h => simp [lcp]

/-- The lists agree below their longest common prefix. -/
lemma take_lcp (l m : List α) : l.take (lcp l m) = m.take (lcp l m) := by
  induction l, m using lcp.induct with
  | case1 l b m ih => simpa [lcp] using ih
  | case2 a l b m h => simp [lcp, h]
  | case3 l m h => simp [lcp]

/-- A common prefix adds its length. -/
lemma lcp_append_append (p l m : List α) : lcp (p ++ l) (p ++ m) = p.length + lcp l m := by
  induction p with
  | nil => simp
  | cons a p ih =>
    simp only [List.cons_append, lcp, if_true, ih, List.length_cons]
    omega

/-- Lists that agree up to `n` and then differ or end have a common prefix of length `n`. -/
lemma lcp_eq {l m : List α} {n : ℕ} (hl : n ≤ l.length) (htake : l.take n = m.take n)
    (hne : n = l.length ∨ l[n]? ≠ m[n]?) : lcp l m = n := by
  have hm : n ≤ m.length := by
    have hlen := congrArg List.length htake
    simp only [List.length_take] at hlen
    omega
  rw [← List.take_append_drop n l, ← List.take_append_drop n m, htake, lcp_append_append,
    List.length_take_of_le hm]
  have hzero : lcp (l.drop n) (m.drop n) = 0 := by
    rcases hne with rfl | hne
    · simp
    · cases hld : l.drop n with
      | nil => simp
      | cons a l' =>
        cases hmd : m.drop n with
        | nil => simp
        | cons b m' =>
          have ha : l[n]? = some a := by rw [← Nat.add_zero n, ← List.getElem?_drop, hld]; rfl
          have hb : m[n]? = some b := by rw [← Nat.add_zero n, ← List.getElem?_drop, hmd]; rfl
          have hab : a ≠ b := fun h => hne (by rw [ha, hb, h])
          simp [lcp, hab]
  omega

/-- At their longest common prefix two lists differ, unless the first one ends there. -/
lemma getElem?_lcp_ne {l m : List α} (h : lcp l m < l.length) : l[lcp l m]? ≠ m[lcp l m]? := by
  induction l, m using lcp.induct with
  | case1 l b m ih =>
    have hlt : lcp l m < l.length := by
      simp only [lcp, if_true, List.length_cons] at h
      omega
    simpa [lcp] using ih hlt
  | case2 a l b m hab => simp [lcp, hab]
  | case3 l m hnil =>
    cases l with
    | nil => simp at h
    | cons a l =>
      cases m with
      | nil => simp
      | cons b m => exact absurd rfl (hnil a l b m rfl)

/-- What follows a difference does not matter. -/
lemma lcp_append_of_lt {l m : List α} (h : lcp l m < l.length) (r : List α) :
    lcp (l ++ r) m = lcp l m := by
  apply lcp_eq
  · rw [List.length_append]
    omega
  · rw [List.take_append_of_le_length (Nat.le_of_lt h), take_lcp]
  · right
    rw [List.getElem?_append_left h]
    exact getElem?_lcp_ne h

/-- A list that agrees up to and at the first difference has it at the same place. -/
lemma lcp_congr {l m m' : List α} (hlt : lcp l m < l.length)
    (htake : m'.take (lcp l m + 1) = m.take (lcp l m + 1)) : lcp l m' = lcp l m := by
  have hget : m'[lcp l m]? = m[lcp l m]? := by
    rw [← List.getElem?_take_of_lt (Nat.lt_succ_self (lcp l m)), Nat.succ_eq_add_one, htake,
      List.getElem?_take_of_lt (Nat.lt_succ_self _)]
  apply lcp_eq (Nat.le_of_lt hlt)
  · have hcut := congrArg (List.take (lcp l m)) htake
    rw [List.take_take, List.take_take, Nat.min_eq_left (Nat.le_succ _)] at hcut
    rw [hcut, take_lcp]
  · right
    rw [hget]
    exact getElem?_lcp_ne hlt

/-- What lies beyond the shorter list does not count. -/
lemma lcp_take_right {l m : List α} {n : ℕ} (h : l.length ≤ n) : lcp l (m.take n) = lcp l m := by
  induction l generalizing m n with
  | nil => simp
  | cons a l ih =>
    cases m with
    | nil => simp
    | cons b m =>
      obtain _ | n := n
      · cases h
      · simp only [List.take_succ_cons, lcp, ih (Nat.le_of_succ_le_succ h)]

/-- A prefix is its longest common prefix with the list. -/
lemma lcp_take {l : List α} {n : ℕ} (h : n ≤ l.length) : lcp (l.take n) l = n := by
  have hlen := List.length_take_of_le h
  exact lcp_eq (by omega) (by rw [List.take_take, Nat.min_self]) (Or.inl hlen.symm)

end Lib
