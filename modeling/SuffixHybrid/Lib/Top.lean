import Mathlib.Data.Finset.Card
import Mathlib.Data.List.Sort
import Mathlib.Order.Lattice.Nat
import Mathlib.Tactic.Common
import SuffixHybrid.Lib.Best

/-!
# The largest elements

`Top k D val sel` says that the list `sel` has `k` elements of a finite set with the largest values, or all of
them when there are fewer. It survives the removal of elements that are smaller than all others and a change
of names, and where the values are distinct it determines the elements.
-/

namespace Lib
variable {ι κ β : Type} [LinearOrder β]

/-- Each of the `k` largest elements of `D`, once. -/
structure Top (k : ℕ) (D : Finset ι) (val : ι → β) (sel : List ι) : Prop where
  nodup : sel.Nodup
  mem : ∀ i ∈ sel, i ∈ D
  length : sel.length = min k D.card
  top : ∀ i ∈ sel, ∀ j ∈ D, j ∉ sel → val j ≤ val i

variable {k : ℕ} {D : Finset ι} {val : ι → β} {sel sel' : List ι}

/-- For other values in the same order. -/
lemma Top.congr {γ : Type} [LinearOrder γ] {val' : ι → γ} (h : Top k D val sel)
    (hv : ∀ i ∈ D, ∀ j ∈ D, val j ≤ val i → val' j ≤ val' i) : Top k D val' sel where
  nodup := h.nodup
  mem := h.mem
  length := h.length
  top := fun i hi j hj hn => hv i (h.mem i hi) j hj (h.top i hi j hj hn)

/-- Under other names. -/
theorem Top.map [DecidableEq κ] (h : Top k D val sel) {f : ι → κ} (hf : Set.InjOn f D) {val' : κ → β}
    (hv : ∀ i ∈ D, val' (f i) = val i) : Top k (D.image f) val' (sel.map f) where
  nodup := by
    refine List.Nodup.map_on (fun i hi j hj e => ?_) h.nodup
    exact hf (h.mem i hi) (h.mem j hj) e
  mem := by
    intro a ha
    obtain ⟨i, hi, rfl⟩ := List.mem_map.mp ha
    exact Finset.mem_image_of_mem f (h.mem i hi)
  length := by
    rw [List.length_map, h.length, Finset.card_image_of_injOn hf]
  top := by
    intro a ha b hb hn
    obtain ⟨i, hi, rfl⟩ := List.mem_map.mp ha
    obtain ⟨j, hj, rfl⟩ := Finset.mem_image.mp hb
    rw [hv i (h.mem i hi), hv j hj]
    exact h.top i hi j hj fun hm => hn (List.mem_map_of_mem hm)

variable [DecidableEq ι]

/-- Without elements below all others. -/
theorem Top.filter (h : Top k D val sel) {p : ι → Prop} [DecidablePred p]
    (hp : ∀ i ∈ D, p i → ∀ j ∈ D, ¬p j → val j < val i) : Top k (D.filter p) val (sel.filter (p ·)) where
  nodup := h.nodup.filter _
  mem := by
    intro i hi
    obtain ⟨hi, hpi⟩ := List.mem_filter.mp hi
    exact Finset.mem_filter.mpr ⟨h.mem i hi, of_decide_eq_true hpi⟩
  length := by
    have hset : (sel.filter (p ·)).toFinset ⊆ D.filter p := fun i hi => by
      obtain ⟨hi, hpi⟩ := List.mem_filter.mp (List.mem_toFinset.mp hi)
      exact Finset.mem_filter.mpr ⟨h.mem i hi, of_decide_eq_true hpi⟩
    have hle := Finset.card_le_card hset
    rw [List.toFinset_card_of_nodup (h.nodup.filter _)] at hle
    have hlen := h.length
    have hsub : (sel.filter (p ·)).length ≤ sel.length := List.length_filter_le _ _
    have hD := Finset.card_filter_le D p
    by_cases hall : ∀ i ∈ sel, p i
    · have e : sel.filter (p ·) = sel := List.filter_eq_self.mpr fun i hi => decide_eq_true (hall i hi)
      rw [e] at hle ⊢
      omega
    · -- an element outside `p` is selected only when all inside are
      simp only [not_forall] at hall
      obtain ⟨i, hi, hpi⟩ := hall
      have hset' : D.filter p ⊆ (sel.filter (p ·)).toFinset := fun j hj => by
        obtain ⟨hj, hpj⟩ := Finset.mem_filter.mp hj
        rw [List.mem_toFinset, List.mem_filter]
        refine ⟨?_, decide_eq_true hpj⟩
        by_contra hn
        exact absurd (h.top i hi j hj hn) (not_le.mpr (hp j hj hpj i (h.mem i hi) hpi))
      have hge := Finset.card_le_card hset'
      rw [List.toFinset_card_of_nodup (h.nodup.filter _)] at hge
      omega
  top := by
    intro i hi j hj hn
    obtain ⟨hj, hpj⟩ := Finset.mem_filter.mp hj
    refine h.top i (List.mem_filter.mp hi).1 j hj fun hm => hn ?_
    exact List.mem_filter.mpr ⟨hm, decide_eq_true hpj⟩

/-- Where `k` elements are above all others, they are the ones. -/
theorem Top.mem_iff (h : Top k D val sel) {p : ι → Prop} [DecidablePred p]
    (hp : ∀ i ∈ D, p i → ∀ j ∈ D, ¬p j → val j < val i) (hk : (D.filter p).card = k) {i : ι} :
    i ∈ sel ↔ i ∈ D.filter p := by
  have hf := h.filter hp
  have hlen : (sel.filter (p ·)).length = sel.length := by
    have hD := Finset.card_filter_le D p
    rw [hf.length, h.length]
    omega
  have heq : sel.filter (p ·) = sel := List.filter_sublist.eq_of_length hlen
  rw [heq] at hf
  have hset : sel.toFinset ⊆ D.filter p := fun j hj => hf.mem j (List.mem_toFinset.mp hj)
  rw [← Finset.eq_of_subset_of_card_le hset, List.mem_toFinset]
  rw [List.toFinset_card_of_nodup h.nodup, hf.length]
  omega

/-- All elements, where there are at most `k`. -/
lemma Top.mem_of_card_le (h : Top k D val sel) (hk : D.card ≤ k) {i : ι} (hi : i ∈ D) : i ∈ sel := by
  have hset : sel.toFinset ⊆ D := fun j hj => h.mem j (List.mem_toFinset.mp hj)
  rw [← List.mem_toFinset, Finset.eq_of_subset_of_card_le hset]
  · exact hi
  · rw [List.toFinset_card_of_nodup h.nodup, h.length]
    omega

omit [DecidableEq ι] in
/-- The largest of a part that has enough elements, with the rest below the part. -/
theorem Top.extend {S : Finset ι} (h : Top k S val sel) (hS : S ⊆ D) (hk : min k D.card ≤ S.card)
    (hbelow : ∀ i ∈ S, ∀ j ∈ D, j ∉ S → val j ≤ val i) : Top k D val sel where
  nodup := h.nodup
  mem i hi := hS (h.mem i hi)
  length := by
    have hle := Finset.card_le_card hS
    have hlen := h.length
    omega
  top i hi j hj hn := by
    by_cases hjS : j ∈ S
    · exact h.top i hi j hjS hn
    · exact hbelow i (h.mem i hi) j hj hjS

/-- Distinct values determine the elements. -/
theorem Top.perm (h : Top k D val sel) (h' : Top k D val sel') (hv : Set.InjOn val D) : sel.Perm sel' := by
  have hcard : sel.toFinset.card = sel'.toFinset.card := by
    rw [List.toFinset_card_of_nodup h.nodup, List.toFinset_card_of_nodup h'.nodup, h.length, h'.length]
  have key : sel.toFinset ⊆ sel'.toFinset := by
    intro i hi
    by_contra hn
    -- then something else is selected there and not here, and both are at most the other
    obtain ⟨j, hj, hjn⟩ : ∃ j ∈ sel'.toFinset, j ∉ sel.toFinset := by
      by_contra hall
      simp only [not_exists, not_and, not_not] at hall
      exact hn (Finset.eq_of_subset_of_card_le hall hcard.le ▸ hi)
    rw [List.mem_toFinset] at hi hn hj hjn
    have hle := h.top i hi j (h'.mem j hj) hjn
    have hge := h'.top j hj i (h.mem i hi) hn
    exact hn (hv (h.mem i hi) (h'.mem j hj) (le_antisymm hge hle) ▸ hj)
  have e := Finset.eq_of_subset_of_card_le key hcard.ge
  exact (List.perm_ext_iff_of_nodup h.nodup h'.nodup).mpr fun i => by
    rw [← List.mem_toFinset, e, List.mem_toFinset]

/-- The first elements of the list sorted by falling value. -/
def largest (val : ℕ → β) (n k : ℕ) : List ℕ :=
  ((List.range n).mergeSort fun i j => decide (val j ≤ val i)).take k

theorem top_largest (val : ℕ → β) (n k : ℕ) : Top k (Finset.range n) val (largest val n k) := by
  have hperm : ((List.range n).mergeSort fun i j => decide (val j ≤ val i)).Perm (List.range n) :=
    List.mergeSort_perm _ _
  have hsorted := @List.pairwise_mergeSort _ (fun i j => decide (val j ≤ val i))
    (fun a b c hab hbc => decide_eq_true ((of_decide_eq_true hbc).trans (of_decide_eq_true hab)))
    (fun a b => by
      rw [Bool.or_eq_true, decide_eq_true_eq, decide_eq_true_eq]
      exact le_total _ _) (List.range n)
  rw [← List.take_append_drop k ((List.range n).mergeSort _), List.pairwise_append] at hsorted
  constructor
  case nodup => exact ((List.Perm.nodup_iff hperm).mpr List.nodup_range).sublist (List.take_sublist _ _)
  case mem =>
    intro i hi
    exact Finset.mem_range.mpr (List.mem_range.mp (hperm.mem_iff.mp (List.mem_of_mem_take hi)))
  case length => rw [largest, List.length_take, hperm.length_eq, List.length_range, Finset.card_range]
  case top =>
    intro i hi j hj hn
    have hmem := hperm.mem_iff.mpr (List.mem_range.mpr (Finset.mem_range.mp hj))
    rw [← List.take_append_drop k ((List.range n).mergeSort _), List.mem_append] at hmem
    exact of_decide_eq_true (hsorted.2.2 i hi j (hmem.resolve_left hn))

/-- The `k`-th largest element of a list, each counted as often as it is in the list. -/
def kth (l : List β) (k : ℕ) : Option β := (l.mergeSort fun a b => decide (b ≤ a))[k - 1]?

lemma kth_isSome {l : List β} {k : ℕ} (hk : 0 < k) (hl : k ≤ l.length) : (kth l k).isSome := by
  have hlt : k - 1 < (l.mergeSort fun a b => decide (b ≤ a)).length := by
    rw [List.length_mergeSort]
    omega
  rw [kth, List.getElem?_eq_getElem hlt]
  rfl

/-- At least `k` elements are as large as the `k`-th one, and fewer than `k` are larger. -/
theorem kth_spec {l : List β} {k : ℕ} (hk : 0 < k) {t : β} (h : kth l k = some t) :
    k ≤ (l.filter fun x => decide (t ≤ x)).length ∧ (l.filter fun x => decide (t < x)).length < k := by
  have hperm : (l.mergeSort fun a b => decide (b ≤ a)).Perm l := List.mergeSort_perm _ _
  have hsorted := @List.pairwise_mergeSort _ (fun a b : β => decide (b ≤ a))
    (fun a b c hab hbc => decide_eq_true ((of_decide_eq_true hbc).trans (of_decide_eq_true hab)))
    (fun a b => by
      rw [Bool.or_eq_true, decide_eq_true_eq, decide_eq_true_eq]
      exact le_total _ _) l
  rw [kth] at h
  rw [← (hperm.filter _).length_eq, ← (hperm.filter _).length_eq]
  generalize (l.mergeSort fun a b => decide (b ≤ a)) = s at *
  obtain ⟨hlt, rfl⟩ := List.getElem?_eq_some_iff.mp h
  have hsplit : s = s.take (k - 1) ++ s[k - 1] :: s.drop k := by
    conv_lhs => rw [← List.take_append_drop (k - 1) s, List.drop_eq_getElem_cons hlt, Nat.sub_add_cancel hk]
  have hfront : (s.take (k - 1)).length = k - 1 := List.length_take_of_le hlt.le
  generalize s[k - 1] = t at *
  rw [hsplit, List.pairwise_append, List.pairwise_cons] at hsorted
  obtain ⟨-, ⟨hback, -⟩, hcross⟩ := hsorted
  rw [hsplit]
  constructor
  · have hall : (s.take (k - 1)).filter (fun x => decide (t ≤ x)) = s.take (k - 1) :=
      List.filter_eq_self.mpr fun x hx => hcross x hx t List.mem_cons_self
    rw [List.filter_append, hall, List.filter_cons_of_pos (p := fun x => decide (t ≤ x)) (decide_eq_true le_rfl),
      List.length_append, hfront, List.length_cons]
    omega
  · have hnone : (t :: s.drop k).filter (fun x => decide (t < x)) = [] := by
      rw [List.filter_eq_nil_iff]
      intro x hx
      rw [decide_eq_true_eq, not_lt]
      obtain rfl | hx := List.mem_cons.mp hx
      · exact le_rfl
      · exact of_decide_eq_true (hback x hx)
    rw [List.filter_append, hnone, List.append_nil]
    refine (List.length_filter_le _ _).trans_lt ?_
    omega

/-- What is selected is as large as the `k`-th element, and what is larger is selected. -/
theorem Top.kth {val : ℕ → β} {n k : ℕ} {sel : List ℕ} (h : Top k (Finset.range n) val sel) (hk : 0 < k) {t : β}
    (ht : kth ((List.range n).map val) k = some t) : (∀ i ∈ sel, t ≤ val i) ∧ ∀ j < n, t < val j → j ∈ sel := by
  have hcount (p : β → Bool) :
      (((List.range n).map val).filter p).length = ((Finset.range n).filter fun i => p (val i)).card := by
    rw [List.filter_map, List.length_map, ← List.toFinset_card_of_nodup (List.nodup_range.filter _), List.toFinset_filter,
      List.toFinset_range]
    rfl
  have hsel : sel.toFinset.card = min k n := by
    rw [List.toFinset_card_of_nodup h.nodup, h.length, Finset.card_range]
  obtain ⟨hmany, hfew⟩ := kth_spec hk ht
  rw [hcount] at hmany hfew
  have hn : k ≤ n := by
    have hle := Finset.card_filter_le (Finset.range n) fun i => decide (t ≤ val i) = true
    rw [Finset.card_range] at hle
    exact hmany.trans hle
  constructor
  · intro i hi
    by_contra hlt
    rw [not_le] at hlt
    have hsub : (Finset.range n).filter (fun j => decide (t ≤ val j) = true) ⊆ sel.toFinset.erase i := by
      intro j hj
      obtain ⟨hj, hle⟩ := Finset.mem_filter.mp hj
      have hle := of_decide_eq_true hle
      have hne : j ≠ i := by
        rintro rfl
        exact hle.not_gt hlt
      refine Finset.mem_erase.mpr ⟨hne, List.mem_toFinset.mpr ?_⟩
      by_contra hnot
      exact ((h.top i hi j hj hnot).trans_lt hlt).not_ge hle
    have hcard := Finset.card_le_card hsub
    rw [Finset.card_erase_of_mem (List.mem_toFinset.mpr hi)] at hcard
    omega
  · intro j hj hlt
    by_contra hnot
    have hsub : insert j sel.toFinset ⊆ (Finset.range n).filter fun i => decide (t < val i) = true := by
      intro i hi
      obtain rfl | hi := Finset.mem_insert.mp hi
      · exact Finset.mem_filter.mpr ⟨Finset.mem_range.mpr hj, decide_eq_true hlt⟩
      · rw [List.mem_toFinset] at hi
        have hle := h.top i hi j (Finset.mem_range.mpr hj) hnot
        exact Finset.mem_filter.mpr ⟨h.mem i hi, decide_eq_true (hlt.trans_le hle)⟩
    have hcard := Finset.card_le_card hsub
    rw [Finset.card_insert_of_notMem fun hm => hnot (List.mem_toFinset.mp hm)] at hcard
    omega

/-! ## In order -/

lemma Ahead.asymm {f : ℕ → β} {a b : ℕ} (h : Ahead f a b) : ¬Ahead f b a := by
  rintro (hlt | ⟨heq, hlt⟩)
  · obtain hlt' | ⟨heq', -⟩ := h
    · exact hlt.not_gt hlt'
    · exact hlt.ne heq'.symm
  · obtain hlt' | ⟨-, hlt'⟩ := h
    · exact hlt'.ne heq.symm
    · exact hlt.not_gt hlt'

/-- Sorting by falling value keeps the order of equal ones. -/
lemma pairwise_ahead (val : ℕ → β) (n : ℕ) :
    ((List.range n).mergeSort fun i j => decide (val j ≤ val i)).Pairwise (Ahead val) := by
  have htrans (a b c : ℕ) (hab : decide (val b ≤ val a) = true) (hbc : decide (val c ≤ val b) = true) :
      decide (val c ≤ val a) = true := decide_eq_true ((of_decide_eq_true hbc).trans (of_decide_eq_true hab))
  have htotal (a b : ℕ) : (decide (val b ≤ val a) || decide (val a ≤ val b)) = true := by
    rw [Bool.or_eq_true, decide_eq_true_eq, decide_eq_true_eq]
    exact le_total _ _
  have hperm : ((List.range n).mergeSort fun i j => decide (val j ≤ val i)).Perm (List.range n) := List.mergeSort_perm _ _
  have hnodup := hperm.nodup_iff.mpr List.nodup_range
  rw [List.pairwise_iff_forall_sublist]
  intro a b hab
  have hle := of_decide_eq_true (List.pairwise_iff_forall_sublist.mp (List.pairwise_mergeSort htrans htotal (List.range n)) hab)
  obtain hlt | heq := hle.lt_or_eq
  · exact .inl hlt
  refine .inr ⟨heq, ?_⟩
  -- otherwise `b` is before `a` in the range and stays so
  have hne : a ≠ b := by
    have := hnodup.sublist hab
    simpa using this
  by_contra hlt
  have hmem (c : ℕ) (hc : c ∈ [a, b]) : c < n := List.mem_range.mp (hperm.mem_iff.mp (hab.subset hc))
  have hrange : [b, a].Sublist (List.range n) := by
    have hlt : b < a := lt_of_le_of_ne (not_lt.mp hlt) hne.symm
    have hsub : [b, a].Subperm (List.range n) := List.subperm_of_subset (by simpa using hne.symm) fun c hc =>
      List.mem_range.mpr (hmem c (by simpa [or_comm] using hc))
    have hpair : [b, a].Pairwise (· < ·) := List.pairwise_pair.mpr hlt
    exact List.sublist_of_subperm_of_pairwise hsub hpair List.pairwise_lt_range
  have hba := List.pair_sublist_mergeSort htrans htotal (decide_eq_true heq.ge) hrange
  obtain ⟨front, back, hs, ha, hb⟩ := List.cons_sublist_iff.mp hab
  rw [List.singleton_sublist] at hb
  rw [hs] at hnodup hba
  have hdisj := List.disjoint_of_nodup_append hnodup
  obtain ⟨l, l', heq, hl, hl'⟩ := List.sublist_append_iff.mp hba
  cases l with
  | nil =>
    rw [List.nil_append] at heq
    exact hdisj ha (hl'.subset (heq ▸ List.mem_cons_of_mem _ (List.mem_singleton_self a)))
  | cons c l =>
    rw [List.cons_append, List.cons.injEq] at heq
    exact hdisj (hl.subset (heq.1 ▸ List.mem_cons_self)) hb

/-- A list that takes the best of what is left, one after the other, has the largest elements in order. -/
theorem eq_largest {val : ℕ → β} {n : ℕ} {l : List ℕ} (hl : l.Pairwise (Ahead val)) (hmem : ∀ i ∈ l, i < n)
    (hrest : ∀ i ∈ l, ∀ j < n, j ∉ l → Ahead val i j) : l = largest val n l.length := by
  rw [largest]
  have hsorted := pairwise_ahead val n
  have hperm : ((List.range n).mergeSort fun i j => decide (val j ≤ val i)).Perm (List.range n) := List.mergeSort_perm _ _
  generalize (List.range n).mergeSort (fun i j => decide (val j ≤ val i)) = s at hsorted hperm ⊢
  have hnodup := hperm.nodup_iff.mpr List.nodup_range
  have hlnodup : l.Nodup := hl.imp fun h e => by
    rw [e] at h
    exact h.asymm h
  -- behind the list come the others, as they are sorted
  have hfull : l ++ s.filter (fun j => decide (j ∉ l)) = s := by
    refine List.Perm.eq_of_pairwise (fun a b _ _ (h : Ahead val a b) h' => absurd h' h.asymm) ?_ hsorted ?_
    · refine List.pairwise_append.mpr ⟨hl, hsorted.filter _, fun i hi j hj => ?_⟩
      obtain ⟨hj, hjl⟩ := List.mem_filter.mp hj
      exact hrest i hi j (List.mem_range.mp (hperm.mem_iff.mp hj)) (of_decide_eq_true hjl)
    · refine (List.perm_ext_iff_of_nodup (List.nodup_append.mpr ⟨hlnodup, hnodup.filter _, ?_⟩) hnodup).mpr fun j => ?_
      · intro i hi j hj e
        exact of_decide_eq_true (List.mem_filter.mp hj).2 (e ▸ hi)
      · rw [List.mem_append, List.mem_filter, decide_eq_true_eq]
        by_cases hj : j ∈ l
        · simp only [hj, true_or, true_iff]
          exact hperm.mem_iff.mpr (List.mem_range.mpr (hmem j hj))
        · simp only [hj, false_or, not_false_eq_true, and_true]
  conv_rhs => rw [← hfull]
  rw [List.take_left]

end Lib
