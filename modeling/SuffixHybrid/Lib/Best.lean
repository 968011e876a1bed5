import Mathlib.Data.List.MinMax
import Mathlib.Order.Lattice.Nat
import Mathlib.Tactic.Common

/-!
# Best elements of a list

Three loops over a list: one keeps the element of the highest rank, one the highest value of a function
with all the elements that reach it, one the first element of the lowest cost. At the end the first index of
the highest value, and where it lies when the values of some indices are replaced.
-/

namespace Lib

/-! ## The highest rank -/

section Top
variable {α β : Type} [LinearOrder β] {rank : α → β} {below : α → α → Bool}

/-- The loop keeps an element unless the next one ranks above it. -/
def topmost (below : α → α → Bool) (l : List α) (best : Option α) : Option α :=
  l.foldl (fun best a => if best.all (below · a) then some a else best) best

lemma topmost_inv (hb : ∀ a b, below a b = true ↔ rank a < rank b) {l : List α} {best : Option α} {a : α}
    (h : topmost below l best = some a) :
    (a ∈ l ∨ best = some a) ∧ (∀ b ∈ l, rank b ≤ rank a) ∧ ∀ b, best = some b → rank b ≤ rank a := by
  induction l generalizing best with
  | nil =>
    have e : best = some a := h
    refine ⟨.inr e, fun b hb => absurd hb (List.not_mem_nil), fun b hb => ?_⟩
    rw [e] at hb
    exact (Option.some.inj hb) ▸ le_rfl
  | cons x l ih =>
    obtain ⟨hmem, hle, hbest⟩ := ih h
    cases best with
    | none =>
      have hx : rank x ≤ rank a := hbest x rfl
      refine ⟨.inl ?_, fun b hb => ?_, fun b hb => by cases hb⟩
      · obtain hmem | hmem := hmem
        · exact List.mem_cons_of_mem _ hmem
        · cases hmem
          exact List.mem_cons_self
      · obtain rfl | hb := List.mem_cons.mp hb
        · exact hx
        · exact hle b hb
    | some y =>
      simp only [Option.all_some] at hmem hbest
      cases hxy : below y x with
      | true =>
        have hlt := (hb y x).mp hxy
        simp only [hxy, if_true] at hmem hbest
        have hx : rank x ≤ rank a := hbest x rfl
        refine ⟨.inl ?_, fun b hb => ?_, fun b hb => ?_⟩
        · obtain hmem | hmem := hmem
          · exact List.mem_cons_of_mem _ hmem
          · cases hmem
            exact List.mem_cons_self
        · obtain rfl | hb := List.mem_cons.mp hb
          · exact hx
          · exact hle b hb
        · cases hb
          exact hlt.le.trans hx
      | false =>
        have hge : rank x ≤ rank y := by
          refine not_lt.mp fun hlt => ?_
          rw [(hb y x).mpr hlt] at hxy
          cases hxy
        simp only [hxy, Bool.false_eq_true, if_false] at hmem hbest
        have hy : rank y ≤ rank a := hbest y rfl
        refine ⟨?_, fun b hb => ?_, fun b hb => ?_⟩
        · obtain hmem | hmem := hmem
          · exact .inl (List.mem_cons_of_mem _ hmem)
          · exact .inr hmem
        · obtain rfl | hb := List.mem_cons.mp hb
          · exact hge.trans hy
          · exact hle b hb
        · cases hb
          exact hy

/-- The loop ends with an element of the highest rank. -/
theorem topmost_spec (hb : ∀ a b, below a b = true ↔ rank a < rank b) {l : List α} {a : α}
    (h : topmost below l none = some a) : a ∈ l ∧ ∀ b ∈ l, rank b ≤ rank a := by
  obtain ⟨hmem, hle, -⟩ := topmost_inv hb h
  refine ⟨?_, hle⟩
  obtain hmem | hmem := hmem
  · exact hmem
  · cases hmem

lemma topmost_isSome (below : α → α → Bool) (l : List α) {best : Option α} (h : best.isSome) :
    (topmost below l best).isSome := by
  induction l generalizing best with
  | nil => exact h
  | cons x l ih =>
    refine ih ?_
    dsimp only
    split
    · rfl
    · exact h

@[simp] lemma topmost_none_iff {l : List α} : topmost below l none = none ↔ l = [] := by
  cases l with
  | nil => exact iff_of_true rfl rfl
  | cons x l =>
    refine iff_of_false (fun h => ?_) (List.cons_ne_nil x l)
    have hs : (topmost below (x :: l) none).isSome := @topmost_isSome _ below l (some x) rfl
    rw [h] at hs
    cases hs

end Top

/-! ## The highest value -/

section Kept
variable {α : Type} (f : α → ℕ)

/-- The highest value. -/
def peak (l : List α) : ℕ := (l.map f).foldl max 0

/-- The elements of the highest value. -/
def peaks (l : List α) : List α := l.filter fun a => f a = peak f l

lemma peak_concat (l : List α) (a : α) : peak f (l ++ [a]) = max (peak f l) (f a) := by
  simp only [peak, List.map_append, List.map_cons, List.map_nil, List.foldl_append, List.foldl_cons,
    List.foldl_nil]

lemma le_peak {l : List α} {a : α} (h : a ∈ l) : f a ≤ peak f l := by
  induction l using List.reverseRecOn with
  | nil => cases h
  | append_singleton l b ih =>
    rw [peak_concat]
    obtain h | h := List.mem_append.mp h
    · exact (ih h).trans (le_max_left _ _)
    · rw [List.mem_singleton.mp h]
      exact le_max_right _ _

/-- Some element reaches the highest value. -/
lemma peaks_ne_nil {l : List α} (h : l ≠ []) : peaks f l ≠ [] := by
  have hex : ∃ a ∈ l, f a = peak f l := by
    induction l using List.reverseRecOn with
    | nil => exact absurd rfl h
    | append_singleton l b ih =>
      rw [peak_concat]
      obtain hle | hlt := Nat.le_total (peak f l) (f b)
      · exact ⟨b, List.mem_append_right _ List.mem_cons_self, (max_eq_right hle).symm⟩
      · rw [max_eq_left hlt]
        by_cases hl : l = []
        · subst hl
          exact ⟨b, List.mem_cons_self, Nat.le_antisymm hlt (Nat.zero_le _)⟩
        · obtain ⟨a, ha, he⟩ := ih hl
          exact ⟨a, List.mem_append_left _ ha, he⟩
  obtain ⟨a, ha, he⟩ := hex
  exact List.ne_nil_of_mem (List.mem_filter.mpr ⟨ha, decide_eq_true he⟩)

/-- One more element: a higher value replaces the elements so far, the same value joins them. -/
lemma peaks_concat (l : List α) (a : α) :
    peaks f (l ++ [a]) = (if peak f l < f a then [] else peaks f l) ++
      if f a < peak f l then [] else [a] := by
  simp only [peaks, List.filter_append, peak_concat]
  obtain hlt | heq | hgt := Nat.lt_trichotomy (peak f l) (f a)
  · have hnil : l.filter (fun b => decide (f b = max (peak f l) (f a))) = [] := by
      refine List.filter_eq_nil_iff.mpr fun b hb => ?_
      have := le_peak f hb
      simp only [decide_eq_true_eq]
      omega
    rw [hnil, if_pos hlt, if_neg (by omega)]
    simp only [List.filter_cons, List.filter_nil, max_eq_right hlt.le, decide_true, if_true]
  · rw [if_neg (by omega), if_neg (by omega), heq, max_self]
    simp only [List.filter_cons, List.filter_nil, decide_true, if_true]
  · rw [if_neg (by omega), if_pos hgt, max_eq_left hgt.le]
    have hne : decide (f a = peak f l) = false := decide_eq_false (by omega)
    simp only [List.filter_cons, List.filter_nil, hne, Bool.false_eq_true, if_false]

end Kept

/-! ## The lowest cost -/

section Cheapest
variable {α β γ : Type} [LinearOrder β] (cost : α → β) (val : α → γ)

/-- The loop keeps the cost and the value of an element that is cheaper than the best so far. -/
def cheapest (l : List α) (best : β × γ) : β × γ :=
  l.foldl (fun best a => if cost a < best.1 then (cost a, val a) else best) best

/-- An element has the lowest cost of a list, and those before it cost more. -/
def FirstLeast (l : List α) (a : α) : Prop :=
  ∃ pre post, l = pre ++ a :: post ∧ (∀ b ∈ pre, cost a < cost b) ∧ ∀ b ∈ post, cost a ≤ cost b

variable {cost val} {l : List α} {a : α} {best : β × γ}

lemma FirstLeast.mem (h : FirstLeast cost l a) : a ∈ l := by
  obtain ⟨pre, post, rfl, -⟩ := h
  exact List.mem_append_right _ List.mem_cons_self

lemma FirstLeast.le (h : FirstLeast cost l a) : ∀ b ∈ l, cost a ≤ cost b := by
  obtain ⟨pre, post, rfl, hpre, hpost⟩ := h
  intro b hb
  obtain hb | hb := List.mem_append.mp hb
  · exact (hpre b hb).le
  · obtain rfl | hb := List.mem_cons.mp hb
    · exact le_rfl
    · exact hpost b hb

lemma FirstLeast.unique {b : α} (h : FirstLeast cost l a) (h' : FirstLeast cost l b) : a = b := by
  have hab := h.le b h'.mem
  have hba := h'.le a h.mem
  obtain ⟨pre, post, hl, hpre, -⟩ := h
  obtain ⟨pre', post', hl', hpre', -⟩ := h'
  rw [hl] at hl'
  obtain ⟨mid, hp, hc⟩ | ⟨mid, hp, hc⟩ := List.append_eq_append_iff.mp hl'
  · cases mid with
    | nil => exact (List.cons.inj hc).1
    | cons x mid =>
      have hx : a = x := (List.cons.inj hc).1
      have hmem : a ∈ pre' := by
        rw [hp, hx]
        exact List.mem_append_right _ List.mem_cons_self
      exact absurd (hpre' a hmem) hab.not_gt
  · cases mid with
    | nil => exact (List.cons.inj hc).1.symm
    | cons x mid =>
      have hx : b = x := (List.cons.inj hc).1
      have hmem : b ∈ pre := by
        rw [hp, hx]
        exact List.mem_append_right _ List.mem_cons_self
      exact absurd (hpre b hmem) hba.not_gt

/-- In a list in increasing order the elements below the first of the lowest cost more. -/
lemma FirstLeast.lt_of_lt [Preorder α] (h : FirstLeast cost l a) (hl : l.Pairwise (· < ·)) :
    ∀ b ∈ l, b < a → cost a < cost b := by
  obtain ⟨pre, post, rfl, hpre, -⟩ := h
  intro b hb hba
  obtain hb | hb := List.mem_append.mp hb
  · exact hpre b hb
  · obtain rfl | hb := List.mem_cons.mp hb
    · exact absurd hba (lt_irrefl b)
    · have hpost := (List.pairwise_cons.mp (List.pairwise_append.mp hl).2.1).1 b hb
      exact absurd hba hpost.not_gt

/-- One more element at the front, which costs more. -/
lemma FirstLeast.cons {x : α} (h : FirstLeast cost l a) (hx : cost a < cost x) :
    FirstLeast cost (x :: l) a := by
  obtain ⟨pre, post, rfl, hpre, hpost⟩ := h
  refine ⟨x :: pre, post, rfl, fun b hb => ?_, hpost⟩
  obtain rfl | hb := List.mem_cons.mp hb
  · exact hx
  · exact hpre b hb

lemma cheapest_cons (x : α) (l : List α) (best : β × γ) : cheapest cost val (x :: l) best =
    cheapest cost val l (if cost x < best.1 then (cost x, val x) else best) := rfl

/-- Nothing is cheaper than the best so far. -/
lemma cheapest_stays (h : ∀ a ∈ l, best.1 ≤ cost a) : cheapest cost val l best = best := by
  induction l with
  | nil => rfl
  | cons x l ih =>
    rw [cheapest_cons, if_neg (not_lt.mpr (h x List.mem_cons_self))]
    exact ih fun a ha => h a (List.mem_cons_of_mem _ ha)

/-- The loop ends with the first element of the lowest cost, if that is below the starting one. -/
theorem cheapest_spec (val : α → γ) (best : β × γ) (h : ∃ a ∈ l, cost a < best.1) :
    ∃ a, FirstLeast cost l a ∧ cheapest cost val l best = (cost a, val a) := by
  induction l generalizing best with
  | nil =>
    obtain ⟨a, ha, -⟩ := h
    cases ha
  | cons x l ih =>
    rw [cheapest_cons]
    split
    case isTrue hx =>
      by_cases hl : ∃ a ∈ l, cost a < cost x
      · obtain ⟨a, hfirst, he⟩ := ih (cost x, val x) hl
        obtain ⟨b, hb, hbx⟩ := hl
        exact ⟨a, hfirst.cons ((hfirst.le b hb).trans_lt hbx), he⟩
      · have hge : ∀ b ∈ l, cost x ≤ cost b := fun b hb => not_lt.mp fun hlt => hl ⟨b, hb, hlt⟩
        exact ⟨x, ⟨[], l, rfl, by simp, hge⟩, cheapest_stays hge⟩
    case isFalse hx =>
      obtain ⟨b, hb, hlt⟩ := h
      obtain rfl | hb := List.mem_cons.mp hb
      · exact absurd hlt hx
      · obtain ⟨a, hfirst, he⟩ := ih best ⟨b, hb, hlt⟩
        exact ⟨a, hfirst.cons (((hfirst.le b hb).trans_lt hlt).trans_le (not_lt.mp hx)), he⟩

/-- Started with the first element the loop ends with the first element of the lowest cost. -/
theorem cheapest_head (cost : α → β) (val : α → γ) (x : α) (l : List α) :
    ∃ a, FirstLeast cost (x :: l) a ∧ cheapest cost val l (cost x, val x) = (cost a, val a) := by
  by_cases hl : ∃ a ∈ l, cost a < cost x
  · obtain ⟨a, hfirst, he⟩ := cheapest_spec val (cost x, val x) hl
    obtain ⟨b, hb, hbx⟩ := hl
    exact ⟨a, hfirst.cons ((hfirst.le b hb).trans_lt hbx), he⟩
  · have hge : ∀ b ∈ l, cost x ≤ cost b := fun b hb => not_lt.mp fun hlt => hl ⟨b, hb, hlt⟩
    exact ⟨x, ⟨[], l, rfl, by simp, hge⟩, cheapest_stays hge⟩

/-- Two costs that agree on a list give the same loop. -/
lemma cheapest_congr {cost' : α → β} {val' : α → γ} (hc : ∀ a ∈ l, cost a = cost' a)
    (hv : ∀ a ∈ l, val a = val' a) (best : β × γ) :
    cheapest cost val l best = cheapest cost' val' l best := by
  induction l generalizing best with
  | nil => rfl
  | cons x l ih =>
    rw [cheapest_cons, cheapest_cons, hc x List.mem_cons_self, hv x List.mem_cons_self]
    exact ih (fun a ha => hc a (List.mem_cons_of_mem _ ha))
      (fun a ha => hv a (List.mem_cons_of_mem _ ha)) _

end Cheapest

/-! ## The first index of the highest value -/

section First
variable {β : Type} [LinearOrder β] {n a : ℕ} {f g : ℕ → β} {kept : ℕ → Prop}

lemma mem_argmax_range :
    a ∈ (List.range n).argmax f ↔ a < n ∧ (∀ b < n, f b ≤ f a) ∧ ∀ b < n, f b = f a → a ≤ b := by
  have hidx : ∀ b < n, (List.range n).idxOf b = b := fun b hb => by
    have h := (List.nodup_range (n := n)).idxOf_getElem b (by rwa [List.length_range])
    rwa [List.getElem_range] at h
  rw [List.mem_argmax_iff, List.mem_range]
  refine and_congr_right fun ha => ?_
  simp only [List.mem_range]
  refine and_congr_right fun hmax => forall₂_congr fun b hb => ?_
  rw [hidx a ha, hidx b hb]
  exact ⟨fun h e => h e.ge, fun h hle => h ((hmax b hb).antisymm hle)⟩

/-- The first index of the highest value below a bound, and 0 if there is none. -/
def firstMax (n : ℕ) (f : ℕ → β) : ℕ := ((List.range n).argmax f).getD 0

lemma firstMax_spec (f : ℕ → β) (hn : 0 < n) : firstMax n f < n ∧ ∀ j < n, f j ≤ f (firstMax n f) := by
  cases h : (List.range n).argmax f with
  | none =>
    rw [List.argmax_eq_none, List.range_eq_nil] at h
    omega
  | some a =>
    obtain ⟨ha, hmax, -⟩ := mem_argmax_range.mp h
    rw [firstMax, h]
    exact ⟨ha, hmax⟩

/-- An index is ahead of another one: its value is higher, or as high and it comes first. -/
def Ahead (f : ℕ → β) (a b : ℕ) : Prop := f b < f a ∨ f b = f a ∧ a < b

lemma ahead_of_mem_argmax (h : a ∈ (List.range n).argmax f) {b : ℕ} (hb : b < n) (hne : b ≠ a) : Ahead f a b := by
  obtain ⟨-, hmax, hfirst⟩ := mem_argmax_range.mp h
  obtain hlt | heq := (hmax b hb).lt_or_eq
  · exact .inl hlt
  · exact .inr ⟨heq, (hfirst b hb heq).lt_of_ne' hne⟩

lemma not_ahead_of_mem_argmax (h : a ∈ (List.range n).argmax f) {b : ℕ} (hb : b < n) : ¬Ahead f b a := by
  obtain ⟨-, hmax, hfirst⟩ := mem_argmax_range.mp h
  rintro (hlt | ⟨heq, hlt⟩)
  · exact hlt.not_ge (hmax b hb)
  · exact hlt.not_ge (hfirst b hb heq.symm)

/-- The first best index is one of a set exactly if each index outside has one of the set ahead of it. -/
theorem argmax_mem_iff :
    (∀ a ∈ (List.range n).argmax f, kept a) ↔ ∀ t < n, ¬kept t → ∃ c < n, kept c ∧ Ahead f c t := by
  constructor
  · intro h t ht htk
    obtain ⟨a, ha⟩ : ∃ a, a ∈ (List.range n).argmax f := by
      refine Option.ne_none_iff_exists'.mp fun h => ?_
      rw [List.argmax_eq_none, List.range_eq_nil] at h
      omega
    refine ⟨a, (mem_argmax_range.mp ha).1, h a ha, ahead_of_mem_argmax ha ht ?_⟩
    rintro rfl
    exact htk (h t ha)
  · intro h b hb
    by_contra hbk
    obtain ⟨c, hc, -, hahead⟩ := h b (mem_argmax_range.mp hb).1 hbk
    exact not_ahead_of_mem_argmax hb hc hahead

/-- Two functions that agree on a set have the same first best index, if it is in the set for both. -/
theorem argmax_eq_of_mem (hfg : ∀ a < n, kept a → f a = g a) {b : ℕ} (ha : a ∈ (List.range n).argmax f) (hka : kept a)
    (hb : b ∈ (List.range n).argmax g) (hkb : kept b) : a = b := by
  obtain ⟨han, hamax, hafirst⟩ := mem_argmax_range.mp ha
  obtain ⟨hbn, hbmax, hbfirst⟩ := mem_argmax_range.mp hb
  have hle : g a ≤ g b := hbmax a han
  have hge : g b ≤ g a := by
    rw [← hfg a han hka, ← hfg b hbn hkb]
    exact hamax b hbn
  have heq := hle.antisymm hge
  refine (hafirst b hbn ?_).antisymm (hbfirst a han heq)
  rw [hfg a han hka, hfg b hbn hkb, heq]

end First
end Lib
