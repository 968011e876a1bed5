import Mathlib.Algebra.Order.BigOperators.Group.Finset
import SuffixHybrid.Nvfp4Moe.Route

/-!
# The listed pairs and the serial router

What the routers should write: the experts with pairs in ascending order, each with the place and the number of its
pairs, and the pairs in ascending order. Stores that are these, in any order, leave the slots and the lists in the
workspace (`listed_of_writes`).
-/

open Finset

namespace SuffixHybrid.Nvfp4Moe
open Lib

namespace Args
variable (A : Args)

/-! ## Places -/

/-- The pairs of the experts before. -/
def off (e : ℕ) : ℕ := ∑ i ∈ range e, A.count i

/-- The experts before that have pairs. -/
def rank (e : ℕ) : ℕ := ∑ i ∈ range e, if 0 < A.count i then 1 else 0

/-- The number of experts that have pairs. -/
def active : ℕ := A.rank A.numExperts

/-- The pairs of an expert, in ascending order. -/
def pairsOf (e : ℕ) : List ℕ := (List.range A.pairs).filter (A.has e)

variable {A} {e e' : ℕ}

lemma length_pairsOf : (A.pairsOf e).length = A.count e := List.countP_eq_length_filter.symm

lemma mem_pairsOf {p : ℕ} : p ∈ A.pairsOf e ↔ p < A.pairs ∧ A.localId p = e := by
  rw [pairsOf, List.mem_filter, List.mem_range, has, decide_eq_true_eq]

lemma off_succ : A.off (e + 1) = A.off e + A.count e := sum_range_succ _ e

lemma rank_succ : A.rank (e + 1) = A.rank e + if 0 < A.count e then 1 else 0 := sum_range_succ _ e

lemma off_mono (h : e ≤ e') : A.off e ≤ A.off e' := sum_le_sum_of_subset (range_subset_range.mpr h)

lemma rank_mono (h : e ≤ e') : A.rank e ≤ A.rank e' := sum_le_sum_of_subset (range_subset_range.mpr h)

lemma off_add_le (h : e < e') : A.off e + A.count e ≤ A.off e' := off_succ.symm.le.trans (off_mono h)

lemma rank_lt (hc : 0 < A.count e) (h : e < e') : A.rank e < A.rank e' := by
  refine Nat.lt_of_lt_of_le ?_ (rank_mono h)
  rw [rank_succ, if_pos hc]
  exact Nat.lt_succ_self _

lemma rank_inj (hc : 0 < A.count e) (hc' : 0 < A.count e') (h : A.rank e = A.rank e') : e = e' := by
  obtain hlt | heq | hlt := Nat.lt_trichotomy e e'
  · have := rank_lt hc hlt
    omega
  · exact heq
  · have := rank_lt hc' hlt
    omega

lemma place_inj {i i' : ℕ} (hi : i < A.count e) (hi' : i' < A.count e') (h : A.off e + i = A.off e' + i') :
    e = e' ∧ i = i' := by
  obtain hlt | rfl | hlt := Nat.lt_trichotomy e e'
  · have := @off_add_le A _ _ hlt
    omega
  · exact ⟨rfl, by omega⟩
  · have := @off_add_le A _ _ hlt
    omega

/-- The slots are filled in order. -/
lemma exists_of_lt_rank {s : ℕ} (h : s < A.rank e) : ∃ e' < e, 0 < A.count e' ∧ A.rank e' = s := by
  induction e with
  | zero => exact absurd h (Nat.not_lt_zero s)
  | succ e ih =>
    rw [rank_succ] at h
    obtain hlt | heq := Nat.lt_or_ge s (A.rank e)
    · obtain ⟨e', he', hc, hr⟩ := ih hlt
      exact ⟨e', he'.trans (Nat.lt_succ_self e), hc, hr⟩
    · split_ifs at h with hc
      · exact ⟨e, Nat.lt_succ_self e, hc, by omega⟩
      · omega

/-- There are not more local pairs than pairs. -/
lemma off_le_pairs : A.off e ≤ A.pairs := by
  have hcount : ∀ n, ∑ i ∈ range e, (List.range n).countP (A.has i) ≤ n := fun n => by
    induction n with
    | zero => simp
    | succ n ih =>
      have hone : ∑ i ∈ range e, (if A.has i n = true then 1 else 0) ≤ 1 := by
        rw [← card_filter, card_le_one]
        intro i hi j hj
        have hi := of_decide_eq_true (mem_filter.mp hi).2
        have hj := of_decide_eq_true (mem_filter.mp hj).2
        exact Int.natCast_inj.mp (hi.symm.trans hj)
      simp only [List.range_succ, List.countP_append, List.countP_singleton, sum_add_distrib]
      omega
  exact hcount A.pairs

lemma rank_le : A.rank e ≤ e := by
  refine (sum_le_card_nsmul _ _ 1 fun i _ => ?_).trans (by rw [card_range, smul_eq_mul, Nat.mul_one])
  split_ifs <;> omega

lemma rank_le_off : A.rank e ≤ A.off e := by
  refine sum_le_sum fun i _ => ?_
  split_ifs <;> omega

/-! ## Stores -/

variable (A)

/-- The slot of an expert. -/
def slotWrites (e : ℕ) : List Write :=
  [((.slotExpert, A.rank e), (e : ℤ)), ((.slotOff, A.rank e), (A.off e : ℤ)), ((.slotCnt, A.rank e), (A.count e : ℤ))]

/-- A slot that is left. -/
def emptyWrites (s : ℕ) : List Write := [((.slotExpert, s), -1), ((.slotCnt, s), 0)]

/-- The stores to the workspace. -/
def Out (w : Write) : Prop :=
  (∃ e < A.numExperts, 0 < A.count e ∧ w ∈ A.slotWrites e) ∨
    (∃ s, A.active ≤ s ∧ s < A.maxSlots ∧ w ∈ emptyWrites s) ∨
    ∃ e < A.numExperts, ∃ i p : ℕ, (A.pairsOf e)[i]? = some p ∧ w = ((.pairList, A.off e + i), (p : ℤ))

variable {A} {s i : ℕ} {v v' : ℤ}

lemma out_slotExpert : A.Out ((.slotExpert, s), v) ↔ (∃ e < A.numExperts, 0 < A.count e ∧ A.rank e = s ∧ v = e) ∨
    (A.active ≤ s ∧ s < A.maxSlots ∧ v = -1) := by
  simp [Out, slotWrites, emptyWrites, eq_comm]

lemma out_slotOff : A.Out ((.slotOff, s), v) ↔ ∃ e < A.numExperts, 0 < A.count e ∧ A.rank e = s ∧ v = A.off e := by
  simp [Out, slotWrites, emptyWrites, eq_comm]

lemma out_slotCnt : A.Out ((.slotCnt, s), v) ↔ (∃ e < A.numExperts, 0 < A.count e ∧ A.rank e = s ∧ v = A.count e) ∨
    (A.active ≤ s ∧ s < A.maxSlots ∧ v = 0) := by
  simp [Out, slotWrites, emptyWrites, eq_comm]

lemma out_pairList : A.Out ((.pairList, s), v) ↔
    ∃ e < A.numExperts, ∃ i p : ℕ, (A.pairsOf e)[i]? = some p ∧ A.off e + i = s ∧ v = p := by
  simp [Out, slotWrites, emptyWrites, eq_comm]

lemma not_out {b : Buf} (hb : b = .sh ∨ b = .ids) : ¬A.Out ((b, s), v) := by
  obtain rfl | rfl := hb <;> simp [Out, slotWrites, emptyWrites]

lemma lt_count {p : ℕ} (h : (A.pairsOf e)[i]? = some p) : i < A.count e := by
  rw [← length_pairsOf]
  exact (List.getElem?_eq_some_iff.mp h).1

/-- A place has one value. -/
lemma Out.unique {a : Addr} (h : A.Out (a, v)) (h' : A.Out (a, v')) : v = v' := by
  obtain ⟨b, s⟩ := a
  cases b with
  | sh => exact absurd h (not_out (.inl rfl))
  | ids => exact absurd h (not_out (.inr rfl))
  | slotExpert =>
    obtain ⟨e, he, hc, hr, rfl⟩ | ⟨hs, -, rfl⟩ := out_slotExpert.mp h
    · obtain ⟨e', -, hc', hr', rfl⟩ | ⟨hs', -, rfl⟩ := out_slotExpert.mp h'
      · rw [rank_inj hc hc' (hr.trans hr'.symm)]
      · have := rank_lt hc he
        unfold active at hs'
        omega
    · obtain ⟨e', he', hc', hr', rfl⟩ | ⟨-, -, rfl⟩ := out_slotExpert.mp h'
      · have := rank_lt hc' he'
        unfold active at hs
        omega
      · rfl
  | slotOff =>
    obtain ⟨e, -, hc, hr, rfl⟩ := out_slotOff.mp h
    obtain ⟨e', -, hc', hr', rfl⟩ := out_slotOff.mp h'
    rw [rank_inj hc hc' (hr.trans hr'.symm)]
  | slotCnt =>
    obtain ⟨e, he, hc, hr, rfl⟩ | ⟨hs, -, rfl⟩ := out_slotCnt.mp h
    · obtain ⟨e', -, hc', hr', rfl⟩ | ⟨hs', -, rfl⟩ := out_slotCnt.mp h'
      · rw [rank_inj hc hc' (hr.trans hr'.symm)]
      · have := rank_lt hc he
        unfold active at hs'
        omega
    · obtain ⟨e', he', hc', hr', rfl⟩ | ⟨-, -, rfl⟩ := out_slotCnt.mp h'
      · have := rank_lt hc' he'
        unfold active at hs
        omega
      · rfl
  | pairList =>
    obtain ⟨e, -, i, p, hp, hpl, rfl⟩ := out_pairList.mp h
    obtain ⟨e', -, i', p', hp', hpl', rfl⟩ := out_pairList.mp h'
    obtain ⟨rfl, rfl⟩ := place_inj (lt_count hp) (lt_count hp') (hpl.trans hpl'.symm)
    rw [Option.some.inj (hp.symm.trans hp')]

/-! ## Memory -/

variable (A) in
/-- The stores to the workspace are the right ones. -/
def Writes (l : List Write) : Prop := ∀ w : Write, w.1.1 ≠ .sh → w.1.1 ≠ .ids → (w ∈ l ↔ A.Out w)

variable {m : Mem} {l : List Write}

lemma Writes.value (h : A.Writes l) {a : Addr} (hv : A.Out (a, v)) : storeAll m l a = v := by
  have hsh : a.1 ≠ .sh := fun hb => not_out (.inl hb) hv
  have hids : a.1 ≠ .ids := fun hb => not_out (.inr hb) hv
  refine storeAll_of_agree m (fun w hw ha => ?_) (.inr ⟨(a, v), (h _ hsh hids).mpr hv, rfl⟩)
  obtain ⟨a', v'⟩ := w
  obtain rfl : a' = a := ha
  exact ((h _ hsh hids).mp hw).unique hv

/-- The pairs of a slot. -/
def slotList (m : Mem) (s : ℕ) : List ℤ :=
  (List.range (m (.slotCnt, s)).toNat).map fun i => m (.pairList, (m (.slotOff, s)).toNat + i)

variable (A) in
/-- The slots and the lists: the experts with local pairs fill the first slots in ascending order, and the list of a
slot has the pairs of its expert in ascending order. -/
structure Listed (m : Mem) : Prop where
  fits : A.active ≤ A.maxSlots
  nonempty : ∀ s < A.maxSlots, 0 < m (.slotCnt, s) ↔ s < A.active
  experts : (List.range A.active).map (fun s => m (.slotExpert, s)) =
    ((List.range A.numExperts).filter fun e => 0 < A.count e).map Nat.cast
  empty : ∀ s < A.maxSlots, A.active ≤ s → m (.slotExpert, s) = -1 ∧ m (.slotCnt, s) = 0
  lists : ∀ s < A.active, ∃ e < A.numExperts, m (.slotExpert, s) = e ∧ slotList m s = (A.pairsOf e).map Nat.cast
  cover : ∀ p < A.pairs, 0 ≤ A.localId p → A.localId p < A.numExperts →
    ∃! s, s < A.active ∧ (p : ℤ) ∈ slotList m s
  only : ∀ s < A.active, ∀ v ∈ slotList m s, ∃ p < A.pairs, v = p ∧ 0 ≤ A.localId p ∧ A.localId p < A.numExperts

/-- The slot of an expert with pairs. -/
lemma Writes.slot (h : A.Writes l) (he : e < A.numExperts) (hc : 0 < A.count e) :
    storeAll m l (.slotExpert, A.rank e) = e ∧ storeAll m l (.slotCnt, A.rank e) = A.count e ∧
      slotList (storeAll m l) (A.rank e) = (A.pairsOf e).map Nat.cast := by
  have hcnt : storeAll m l (.slotCnt, A.rank e) = A.count e :=
    h.value (out_slotCnt.mpr (.inl ⟨e, he, hc, rfl, rfl⟩))
  have hoff : storeAll m l (.slotOff, A.rank e) = A.off e := h.value (out_slotOff.mpr ⟨e, he, hc, rfl, rfl⟩)
  refine ⟨h.value (out_slotExpert.mpr (.inl ⟨e, he, hc, rfl, rfl⟩)), hcnt, ?_⟩
  refine List.ext_getElem ?_ fun i hi hi' => ?_
  · rw [slotList, hcnt, List.length_map, List.length_range, List.length_map, length_pairsOf, Int.toNat_natCast]
  · simp only [slotList, List.getElem_map, List.getElem_range, hoff, Int.toNat_natCast]
    have hi' : i < (A.pairsOf e).length := by rwa [List.length_map] at hi'
    exact h.value (out_pairList.mpr ⟨e, he, i, _, List.getElem?_eq_getElem hi', rfl, rfl⟩)

/-- The experts that have pairs, by their slots. -/
lemma map_rank {f : ℕ → ℤ} (hf : ∀ e < A.numExperts, 0 < A.count e → f (A.rank e) = e) (he : e ≤ A.numExperts) :
    (List.range (A.rank e)).map f = ((List.range e).filter fun e => 0 < A.count e).map Nat.cast := by
  induction e with
  | zero => rfl
  | succ e ih =>
    rw [rank_succ, List.range_succ, List.filter_append, List.map_append, ← ih (Nat.le_of_succ_le he)]
    by_cases hc : 0 < A.count e
    · rw [if_pos hc, List.range_succ, List.map_append, List.filter_singleton, decide_eq_true hc]
      simp only [List.map_cons, List.map_nil, hf e he hc]
      rfl
    · rw [if_neg hc, List.filter_singleton, decide_eq_false hc, Nat.add_zero]
      simp

/-- The words of the workspace. -/
def workspace (A : Args) : Buf → ℕ
  | .sh => 0
  | .ids => 0
  | .pairList => A.pairs
  | _ => A.numExperts

/-- The stores are inside of the workspace. -/
lemma Out.inside (hslots : A.maxSlots ≤ A.numExperts) {w : Write} (h : A.Out w) : w.1.2 < A.workspace w.1.1 := by
  have hrank : ∀ {e}, e < A.numExperts → A.rank e < A.numExperts := fun he => Nat.lt_of_le_of_lt rank_le he
  obtain ⟨e, he, -, hw⟩ | ⟨s, -, hs, hw⟩ | ⟨e, he, i, p, hp, rfl⟩ := h
  · simp only [slotWrites, List.mem_cons, List.not_mem_nil, or_false] at hw
    obtain rfl | rfl | rfl := hw <;> exact hrank he
  · simp only [emptyWrites, List.mem_cons, List.not_mem_nil, or_false] at hw
    obtain rfl | rfl := hw <;> exact hs.trans_le hslots
  · have hlt := lt_count hp
    have hend := @off_add_le A e (e + 1) (Nat.lt_succ_self e)
    have hall := @off_le_pairs A (e + 1)
    change A.off e + i < A.pairs
    omega

/-- The right stores list the pairs. -/
theorem listed_of_writes (hslots : A.maxSlots = min A.numExperts A.pairs) (h : A.Writes l) : A.Listed (storeAll m l) := by
  have hfits : A.active ≤ A.maxSlots := by
    have h1 : A.active ≤ A.numExperts := rank_le
    have h2 : A.active ≤ A.pairs := rank_le_off.trans off_le_pairs
    omega
  have hslot : ∀ s < A.active, ∃ e < A.numExperts, 0 < A.count e ∧ A.rank e = s := fun s hs => exists_of_lt_rank hs
  have hempty : ∀ s < A.maxSlots, A.active ≤ s →
      storeAll m l (.slotExpert, s) = -1 ∧ storeAll m l (.slotCnt, s) = 0 := fun s hs hle =>
    ⟨h.value (out_slotExpert.mpr (.inr ⟨hle, hs, rfl⟩)), h.value (out_slotCnt.mpr (.inr ⟨hle, hs, rfl⟩))⟩
  refine ⟨hfits, fun s hs => ?_, map_rank (fun e he hc => (h.slot he hc).1) le_rfl, hempty, fun s hs => ?_,
    fun p hp hlo hhi => ?_, fun s hs v hv => ?_⟩
  · constructor
    · intro hpos
      by_contra hle
      rw [(hempty s hs (not_lt.mp hle)).2] at hpos
      exact lt_irrefl _ hpos
    · intro hlt
      obtain ⟨e, he, hc, rfl⟩ := hslot s hlt
      rw [(h.slot he hc).2.1]
      exact Int.natCast_pos.mpr hc
  · obtain ⟨e, he, hc, rfl⟩ := hslot s hs
    exact ⟨e, he, (h.slot he hc).1, (h.slot he hc).2.2⟩
  · obtain ⟨e, he⟩ := Int.eq_ofNat_of_zero_le hlo
    rw [he] at hhi
    have hhi := Int.ofNat_lt.mp hhi
    have hmem : p ∈ A.pairsOf e := mem_pairsOf.mpr ⟨hp, he⟩
    have hc : 0 < A.count e := by
      rw [← length_pairsOf]
      exact List.length_pos_of_mem hmem
    refine ⟨A.rank e, ⟨rank_lt hc hhi, ?_⟩, ?_⟩
    · rw [(h.slot hhi hc).2.2]
      exact List.mem_map.mpr ⟨p, hmem, rfl⟩
    · rintro s ⟨hs, hin⟩
      obtain ⟨e', he', hc', rfl⟩ := hslot s hs
      rw [(h.slot he' hc').2.2] at hin
      obtain ⟨p', hp', heq⟩ := List.mem_map.mp hin
      obtain rfl := Int.natCast_inj.mp heq
      have hsame := (mem_pairsOf.mp hp').2
      rw [he] at hsame
      rw [Int.natCast_inj.mp hsame]
  · obtain ⟨e, he, hc, rfl⟩ := hslot s hs
    rw [(h.slot he hc).2.2] at hv
    obtain ⟨p, hp, rfl⟩ := List.mem_map.mp hv
    obtain ⟨hlt, hloc⟩ := mem_pairsOf.mp hp
    exact ⟨p, hlt, rfl, hloc ▸ Int.natCast_nonneg e, hloc ▸ Int.ofNat_lt.mpr he⟩

end Args

/-!
## The serial router

The stores of `route_cta`: thread 0 walks over the experts with the offset and the slot that the experts before take.
-/

namespace Args
variable {A : Args} {m : Mem} {l l₁ l₂ l₃ : List Write} {w : Write}

/-- The stores of a walk. -/
lemma mem_walk {ps : List (ℕ × Bool)} {o : ℕ} :
    w ∈ walk ps o ↔ ∃ i p : ℕ, ((ps.filter (·.2)).map (·.1))[i]? = some p ∧ w = ((.pairList, o + i), (p : ℤ)) := by
  induction ps generalizing o with
  | nil => simp [walk]
  | cons q ps ih =>
    obtain ⟨p, hit⟩ := q
    cases hit with
    | false => simpa [walk] using ih
    | true =>
      simp only [walk, List.mem_cons, ih, List.filter_cons_of_pos, List.map_cons]
      constructor
      · rintro (rfl | ⟨i, p', hp, rfl⟩)
        · exact ⟨0, p, rfl, rfl⟩
        · exact ⟨i + 1, p', hp, by rw [Nat.add_right_comm, Nat.add_assoc]⟩
      · rintro ⟨i, p', hp, rfl⟩
        cases i with
        | zero =>
          obtain rfl := Option.some.inj hp
          exact .inl rfl
        | succ i => exact .inr ⟨i, p', hp, by rw [Nat.add_right_comm, Nat.add_assoc]⟩

lemma Phase.mem {writes : ℕ → List Write} (h : Phase writes l) : w ∈ l ↔ ∃ tid < RT, w ∈ writes tid := by
  rw [h.mem_iff, List.mem_flatMap]
  simp only [List.mem_range]

/-- The counts in shared memory. -/
lemma mem_ctaCount (hE : A.numExperts ≤ RT) (h : Phase A.ctaCount l₁) :
    w ∈ l₁ ↔ ∃ e < A.numExperts, w = ((.sh, e), (A.count e : ℤ)) := by
  rw [Phase.mem h]
  constructor
  · rintro ⟨e, -, hw⟩
    unfold ctaCount at hw
    split_ifs at hw with he
    · exact ⟨e, he, List.mem_singleton.mp hw⟩
    · cases hw
  · rintro ⟨e, he, rfl⟩
    refine ⟨e, he.trans_le hE, ?_⟩
    rw [ctaCount, if_pos he]
    exact List.mem_singleton_self _

/-- The loop from an expert on, with the offset and the slot of that expert. -/
lemma mem_ctaExperts (hcount : ∀ e < A.numExperts, m (.sh, e) = A.count e) (hslots : A.active ≤ A.maxSlots) {n k : ℕ}
    (hk : k + n = A.numExperts) :
    w ∈ A.ctaExperts m (List.range' k n) (A.off k) (A.rank k) ↔
      (∃ e, k ≤ e ∧ e < A.numExperts ∧ (w = ((.sh, A.numExperts + e), (A.off e : ℤ)) ∨ 0 < A.count e ∧ w ∈ A.slotWrites e)) ∨
        ∃ s, A.active ≤ s ∧ s < A.maxSlots ∧ w ∈ emptyWrites s := by
  induction n generalizing k with
  | zero =>
    obtain rfl : k = A.numExperts := hk
    simp only [List.range'_zero, ctaExperts, List.mem_flatMap, List.mem_range]
    constructor
    · rintro ⟨i, hi, hw⟩
      exact .inr ⟨A.active + i, Nat.le_add_right _ _, by unfold active; omega, hw⟩
    · rintro (⟨e, hle, hlt, -⟩ | ⟨s, hle, hlt, hw⟩)
      · omega
      · refine ⟨s - A.active, by unfold active at hle ⊢; omega, ?_⟩
        rw [show A.rank A.numExperts + (s - A.active) = s from Nat.add_sub_cancel' hle]
        exact hw
  | succ n ih =>
    have hkE : k < A.numExperts := by omega
    have hnext := @ih (k + 1) (by omega)
    -- the experts from `k` on are `k` and those from `k + 1` on
    have hsplit : ∀ P : ℕ → Prop, (∃ e, k ≤ e ∧ e < A.numExperts ∧ P e) ↔
        P k ∨ ∃ e, k + 1 ≤ e ∧ e < A.numExperts ∧ P e := fun P => by
      constructor
      · rintro ⟨e, hle, hlt, hp⟩
        obtain rfl | hlt' := hle.eq_or_lt
        · exact .inl hp
        · exact .inr ⟨e, hlt', hlt, hp⟩
      · rintro (hp | ⟨e, hle, hlt, hp⟩)
        · exact ⟨k, le_rfl, hkE, hp⟩
        · exact ⟨e, Nat.le_of_succ_le hle, hlt, hp⟩
    have hoff : ((A.off k : ℤ) + A.count k) = (A.off (k + 1) : ℤ) := by rw [off_succ, Nat.cast_add]
    rw [List.range'_succ, ctaExperts, hcount k hkE, hsplit, or_assoc, ← hnext, hoff, rank_succ]
    by_cases hc : 0 < A.count k
    · have hlt : A.rank k < A.maxSlots := (rank_lt hc hkE).trans_le hslots
      rw [if_pos ⟨Int.natCast_pos.mpr hc, hlt⟩, if_pos hc]
      simp only [List.mem_cons, slotWrites, List.not_mem_nil, or_false, hc, true_and, or_assoc]
    · rw [if_neg fun h => hc (Int.natCast_pos.mp h.1), if_neg hc]
      simp only [List.mem_cons, hc, false_and, or_false, Nat.add_zero]

/-- Buffers of these sizes have room for the stores. -/
def Inside (size : Buf → ℕ) (l : List Write) : Prop := ∀ w ∈ l, w.1.2 < size w.1.1

/-- The walk of the pairs of an expert. -/
lemma mem_walk_pairs {ps : List (ℕ × Bool)} {e : ℕ} (h : (ps.filter (·.2)).map (·.1) = A.pairsOf e) :
    w ∈ walk ps (A.off e) ↔ ∃ i p : ℕ, (A.pairsOf e)[i]? = some p ∧ w = ((.pairList, A.off e + i), (p : ℤ)) := by
  rw [mem_walk, h]

/-- The buffers of `route_cta`: the workspace and two words of shared memory for each expert. -/
def ctaSize (A : Args) : Buf → ℕ
  | .sh => 2 * A.numExperts
  | b => A.workspace b

/-- `route_cta` writes the right stores to the workspace, and stays inside of its buffers. -/
theorem writes_cta (hE : A.numExperts ≤ RT) (hslots : A.maxSlots = min A.numExperts A.pairs) (h : A.RouteCta m l) :
    A.Writes l ∧ Inside A.ctaSize l := by
  obtain ⟨l₁, l₂, l₃, h₁, h₂, h₃, rfl⟩ := h
  have hactive : A.active ≤ A.maxSlots := by
    have h1 : A.active ≤ A.numExperts := rank_le
    have h2 : A.active ≤ A.pairs := rank_le_off.trans off_le_pairs
    omega
  have hcount : ∀ e < A.numExperts, storeAll m l₁ (.sh, e) = A.count e := fun e he => by
    refine storeAll_of_agree m (fun w hw hwe => ?_) (.inr ⟨_, (mem_ctaCount hE h₁).mpr ⟨e, he, rfl⟩, rfl⟩)
    obtain ⟨e', -, rfl⟩ := (mem_ctaCount hE h₁).mp hw
    obtain rfl := congrArg Prod.snd hwe
    rfl
  have hmem₂ : ∀ w, w ∈ l₂ ↔ (∃ e, 0 ≤ e ∧ e < A.numExperts ∧
      (w = ((.sh, A.numExperts + e), (A.off e : ℤ)) ∨ 0 < A.count e ∧ w ∈ A.slotWrites e)) ∨
        ∃ s, A.active ≤ s ∧ s < A.maxSlots ∧ w ∈ emptyWrites s := fun w => by
    rw [Phase.mem h₂, ← mem_ctaExperts hcount hactive (Nat.zero_add _)]
    constructor
    · rintro ⟨tid, -, hw⟩
      unfold ctaSlots at hw
      split_ifs at hw
      · rwa [List.range_eq_range'] at hw
      · cases hw
    · intro hw
      refine ⟨0, by decide, ?_⟩
      rwa [ctaSlots, if_pos rfl, List.range_eq_range']
  have hoff : ∀ e < A.numExperts, storeAll m (l₁ ++ l₂) (.sh, A.numExperts + e) = A.off e := fun e he => by
    refine storeAll_of_agree m (fun w hw hwe => ?_) (.inr ⟨((.sh, A.numExperts + e), (A.off e : ℤ)), ?_, rfl⟩)
    · obtain hw | hw := List.mem_append.mp hw
      · obtain ⟨e', he', rfl⟩ := (mem_ctaCount hE h₁).mp hw
        have hplace : e' = A.numExperts + e := congrArg Prod.snd hwe
        omega
      · obtain ⟨e', -, -, rfl | ⟨-, hw⟩⟩ | ⟨s, -, -, hw⟩ := (hmem₂ w).mp hw
        · have hplace : A.numExperts + e' = A.numExperts + e := congrArg Prod.snd hwe
          rw [Nat.add_left_cancel hplace]
        · simp only [slotWrites, List.mem_cons, List.not_mem_nil, or_false] at hw
          obtain rfl | rfl | rfl := hw <;> cases hwe
        · simp only [emptyWrites, List.mem_cons, List.not_mem_nil, or_false] at hw
          obtain rfl | rfl := hw <;> cases hwe
    · exact List.mem_append_right _ ((hmem₂ _).mpr (.inl ⟨e, Nat.zero_le e, he, .inl rfl⟩))
  have hmem₃ : ∀ w, w ∈ l₃ ↔ ∃ e < A.numExperts, ∃ i p : ℕ, (A.pairsOf e)[i]? = some p ∧
      w = ((.pairList, A.off e + i), (p : ℤ)) := fun w => by
    have hpairs : ∀ e, (((List.range A.pairs).map fun p => (p, A.has e p)).filter (·.2)).map (·.1) = A.pairsOf e :=
      fun e => by
        rw [List.filter_map, List.map_map]
        exact List.map_id _
    rw [Phase.mem h₃]
    constructor
    · rintro ⟨e, -, hw⟩
      unfold ctaPairs at hw
      split_ifs at hw with he
      · rw [hoff e he.1, Int.toNat_natCast, mem_walk_pairs (hpairs e)] at hw
        exact ⟨e, he.1, hw⟩
      · cases hw
    · rintro ⟨e, he, i, p, hp, rfl⟩
      refine ⟨e, he.trans_le hE, ?_⟩
      rw [ctaPairs, if_pos ⟨he, Nat.zero_lt_of_lt (lt_count hp)⟩, hoff e he, Int.toNat_natCast,
        mem_walk_pairs (hpairs e)]
      exact ⟨i, p, hp, rfl⟩
  have hall : ∀ w, w ∈ l₁ ++ l₂ ++ l₃ ↔ (∃ e < A.numExperts, w = ((.sh, e), (A.count e : ℤ)) ∨
      w = ((.sh, A.numExperts + e), (A.off e : ℤ))) ∨ A.Out w := fun w => by
    rw [List.mem_append, List.mem_append, mem_ctaCount hE h₁, hmem₂, hmem₃]
    constructor
    · rintro ((⟨e, he, rfl⟩ | ⟨e, -, he, rfl | ⟨hc, hw⟩⟩ | hw) | hw)
      · exact .inl ⟨e, he, .inl rfl⟩
      · exact .inl ⟨e, he, .inr rfl⟩
      · exact .inr (.inl ⟨e, he, hc, hw⟩)
      · exact .inr (.inr (.inl hw))
      · exact .inr (.inr (.inr hw))
    · rintro (⟨e, he, rfl | rfl⟩ | ⟨e, he, hc, hw⟩ | hw | hw)
      · exact .inl (.inl ⟨e, he, rfl⟩)
      · exact .inl (.inr (.inl ⟨e, Nat.zero_le e, he, .inl rfl⟩))
      · exact .inl (.inr (.inl ⟨e, Nat.zero_le e, he, .inr ⟨hc, hw⟩⟩))
      · exact .inl (.inr (.inr hw))
      · exact .inr hw
  refine ⟨fun w hsh hids => ?_, fun w hw => ?_⟩
  · rw [hall w]
    refine or_iff_right ?_
    rintro ⟨e, -, rfl | rfl⟩ <;> exact hsh rfl
  · obtain ⟨e, he, rfl | rfl⟩ | hout := (hall w).mp hw
    · change e < 2 * A.numExperts
      omega
    · change A.numExperts + e < 2 * A.numExperts
      omega
    · have hlt := hout.inside (by omega)
      obtain ⟨⟨b, s⟩, v⟩ := w
      cases b with
      | sh => exact absurd hout (not_out (.inl rfl))
      | _ => exact hlt

end Args

end SuffixHybrid.Nvfp4Moe
