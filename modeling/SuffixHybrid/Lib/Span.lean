import Mathlib.Data.List.Chain
import Mathlib.Order.Lattice
import Mathlib.Tactic.Common

/-!
# Consecutive intervals

`Span a c l` says that the labelled half-open intervals of `l` are non-empty and follow each other from
`a` to `c` without gap or overlap. Then every point between the ends is in one of them (`Span.covers`),
and in one only (`Span.unique`).
-/

namespace Lib
variable {α β : Type} [LinearOrder α]

/-- Consecutive non-empty intervals from one point to another. -/
inductive Span : α → α → List (α × α × β) → Prop where
  | nil (a : α) : Span a a []
  | cons {a b c w l} : a < b → Span b c l → Span a c ((a, b, w) :: l)

namespace Span
variable {a c : α} {l : List (α × α × β)}

lemma le (h : Span a c l) : a ≤ c := by
  induction h with
  | nil => exact le_rfl
  | cons hab _ ih => exact hab.le.trans ih

/-- The intervals lie between the ends and are not empty. -/
lemma bounds (h : Span a c l) {p : α × α × β} (hp : p ∈ l) : a ≤ p.1 ∧ p.1 < p.2.1 ∧ p.2.1 ≤ c := by
  induction h with
  | nil => cases hp
  | @cons a b c w l hab hl ih =>
    obtain rfl | hp := List.mem_cons.mp hp
    · exact ⟨le_rfl, hab, hl.le⟩
    · obtain ⟨hlo, hne, hhi⟩ := ih hp
      exact ⟨hab.le.trans hlo, hne, hhi⟩

lemma head (h : Span a c l) : ∀ p ∈ l.head?, p.1 = a := by
  cases h with
  | nil => simp
  | cons => simp

lemma last (h : Span a c l) : ∀ p ∈ l.getLast?, p.2.1 = c := by
  induction h with
  | nil => simp
  | @cons a b c w l hab hl ih =>
    cases hl with
    | nil => simp
    | cons =>
      rw [List.getLast?_cons_cons]
      exact ih

/-- Each interval starts where the one before it ends. -/
lemma isChain (h : Span a c l) : l.IsChain fun p q => p.2.1 = q.1 := by
  induction h with
  | nil => exact .nil
  | @cons a b c w l hab hl ih =>
    rw [List.isChain_cons]
    exact ⟨fun q hq => (hl.head q hq).symm, ih⟩

/-- Every point between the ends is in an interval. -/
lemma covers (h : Span a c l) {x : α} (hlo : a ≤ x) (hhi : x < c) : ∃ p ∈ l, p.1 ≤ x ∧ x < p.2.1 := by
  induction h with
  | nil => exact absurd hhi hlo.not_gt
  | @cons a b c w l hab hl ih =>
    by_cases hx : x < b
    · exact ⟨(a, b, w), List.mem_cons_self, hlo, hx⟩
    · obtain ⟨p, hp, hin⟩ := ih (not_lt.mp hx) hhi
      exact ⟨p, List.mem_cons_of_mem _ hp, hin⟩

/-- A point is in one interval only. -/
lemma unique (h : Span a c l) {x : α} {p q : α × α × β} (hp : p ∈ l) (hq : q ∈ l)
    (hxp : p.1 ≤ x ∧ x < p.2.1) (hxq : q.1 ≤ x ∧ x < q.2.1) : p = q := by
  induction h with
  | nil => cases hp
  | @cons a b c w l hab hl ih =>
    obtain rfl | hp := List.mem_cons.mp hp
    · obtain rfl | hq := List.mem_cons.mp hq
      · rfl
      · exact absurd (hxp.2.trans_le ((hl.bounds hq).1.trans hxq.1)) (lt_irrefl _)
    · obtain rfl | hq := List.mem_cons.mp hq
      · exact absurd (hxq.2.trans_le ((hl.bounds hp).1.trans hxp.1)) (lt_irrefl _)
      · exact ih hp hq

end Span
end Lib
