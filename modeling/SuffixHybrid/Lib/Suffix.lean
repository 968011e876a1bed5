import Mathlib.Data.List.Infix
import Mathlib.Data.List.DropRight
import Mathlib.Data.Nat.Find
import Mathlib.Tactic.Common

/-!
# Longest suffixes

A bounded first-in-first-out store keeps the longest suffix of its input that meets a budget.
`trim p l` drops elements from the front of `l` until `p` holds. For a budget that shorter runs of
the input also meet, trimming after every arrival is the same as trimming the whole input once
(`trim_append`), and the result is the longest suffix within the budget (`trim_longest`).
`commonSuffix` is the length of the longest common suffix of two lists.
-/

namespace Lib
variable {α : Type}

/-- `s` is the longest suffix of `l` that meets `p`. -/
structure IsLongestSuffix (p : List α → Prop) (s l : List α) : Prop where
  suffix : s <:+ l
  holds : p s
  longest : ∀ t, t <:+ l → p t → t.length ≤ s.length

/-- Drop elements from the front until `p` holds. -/
def trim (p : List α → Prop) [DecidablePred p] : List α → List α
  | [] => []
  | a :: l => if p (a :: l) then a :: l else trim p l

variable {p : List α → Prop} [DecidablePred p]

lemma trim_of_holds {l : List α} (h : p l) : trim p l = l := by
  cases l with
  | nil => rfl
  | cons a l => simp [trim, h]

lemma trim_suffix (l : List α) : trim p l <:+ l := by
  induction l with
  | nil => exact List.suffix_refl _
  | cons a l ih =>
    simp only [trim]
    split
    · exact List.suffix_refl _
    · exact ih.trans (List.suffix_cons a l)

lemma trim_holds (h0 : p []) (l : List α) : p (trim p l) := by
  induction l with
  | nil => exact h0
  | cons a l ih =>
    simp only [trim]
    split
    · assumption
    · exact ih

/-- Every suffix within the budget is a suffix of the trimmed list. -/
lemma suffix_trim {s l : List α} (hs : s <:+ l) (hp : p s) : s <:+ trim p l := by
  induction l with
  | nil => exact hs
  | cons a l ih =>
    simp only [trim]
    rcases List.suffix_cons_iff.mp hs with rfl | hs'
    · rw [if_pos hp]
    · split
      · exact hs
      · exact ih hs'

/-- Trimming gives the longest suffix within the budget. -/
theorem trim_longest (h0 : p []) (l : List α) : IsLongestSuffix p (trim p l) l where
  suffix := trim_suffix l
  holds := trim_holds h0 l
  longest _ ht hp := (suffix_trim ht hp).length_le

/-- Trimming in between does not change the final result. -/
theorem trim_append (h0 : p []) (hinit : ∀ s r, p (s ++ r) → p s) (l r : List α) :
    trim p (trim p l ++ r) = trim p (l ++ r) := by
  have hle : trim p (trim p l ++ r) <:+ trim p (l ++ r) := by
    apply suffix_trim _ (trim_holds h0 _)
    exact (trim_suffix _).trans (List.suffix_append_self_iff.mpr (trim_suffix l))
  have hge : trim p (l ++ r) <:+ trim p (trim p l ++ r) := by
    apply suffix_trim _ (trim_holds h0 _)
    -- a suffix of `l ++ r` is a suffix of `r` or a suffix of `l` followed by `r`
    have hsuf : trim p (l ++ r) <:+ l ++ r := trim_suffix _
    rcases List.suffix_or_suffix_of_suffix hsuf (List.suffix_append l r) with h | ⟨s, e⟩
    · exact h.trans (List.suffix_append _ _)
    · have hp : p (s ++ r) := e ▸ trim_holds h0 (l ++ r)
      rw [← e] at hsuf ⊢
      have hs : s <:+ l := List.suffix_append_self_iff.mp hsuf
      exact List.suffix_append_self_iff.mpr (suffix_trim hs (hinit s r hp))
  exact hle.eq_of_length_le hge.length_le

/-! ## Common suffixes -/

section Common
variable [DecidableEq α]

/-- The length of the longest common suffix. -/
def commonSuffix (l m : List α) : ℕ :=
  Nat.findGreatest (fun k => l.rtake k = m.rtake k) (min l.length m.length)

omit [DecidableEq α] in
lemma rtake_succ {l : List α} {k : ℕ} (h : k < l.length) :
    l.rtake (k + 1) = l[l.length - k - 1] :: l.rtake k := by
  have hlt : l.length - (k + 1) < l.length := by omega
  rw [List.rtake, List.drop_eq_getElem_cons hlt, List.rtake]
  congr 2
  omega

omit [DecidableEq α] in
/-- Lists that share their last elements share fewer of them. -/
lemma rtake_eq_of_le {l m : List α} {j k : ℕ} (hl : k ≤ l.length) (hm : k ≤ m.length)
    (h : l.rtake k = m.rtake k) (hj : j ≤ k) : l.rtake j = m.rtake j := by
  have hd (l : List α) (hl : k ≤ l.length) : l.rtake j = (l.rtake k).drop (k - j) := by
    rw [List.rtake, List.rtake, List.drop_drop]
    congr 1
    omega
  rw [hd l hl, hd m hm, h]

lemma commonSuffix_le_left (l m : List α) : commonSuffix l m ≤ l.length :=
  (Nat.findGreatest_le _).trans (min_le_left _ _)

lemma commonSuffix_le_right (l m : List α) : commonSuffix l m ≤ m.length :=
  (Nat.findGreatest_le _).trans (min_le_right _ _)

lemma rtake_commonSuffix (l m : List α) :
    l.rtake (commonSuffix l m) = m.rtake (commonSuffix l m) := by
  have h0 : l.rtake 0 = m.rtake 0 := by rw [List.rtake_zero, List.rtake_zero]
  exact Nat.findGreatest_spec (P := fun k => l.rtake k = m.rtake k) (Nat.zero_le _) h0

lemma le_commonSuffix {l m : List α} {k : ℕ} (hl : k ≤ l.length) (hm : k ≤ m.length)
    (h : l.rtake k = m.rtake k) : k ≤ commonSuffix l m :=
  Nat.le_findGreatest (le_min hl hm) h

/-- A shared suffix that ends with one of the lists, or at a first difference, is the longest. -/
lemma commonSuffix_eq {l m : List α} {k : ℕ} (hl : k ≤ l.length) (hm : k ≤ m.length)
    (h : l.rtake k = m.rtake k)
    (hend : k < l.length → k < m.length → l.rtake (k + 1) ≠ m.rtake (k + 1)) :
    commonSuffix l m = k := by
  refine Nat.le_antisymm ?_ (le_commonSuffix hl hm h)
  refine Nat.le_of_not_lt fun hlt => ?_
  have hl' := commonSuffix_le_left l m
  have hm' := commonSuffix_le_right l m
  exact hend (by omega) (by omega)
    (rtake_eq_of_le hl' hm' (rtake_commonSuffix l m) (Nat.succ_le_of_lt hlt))

end Common

end Lib
