import Mathlib.Data.List.Dedup
import Mathlib.Data.List.Induction
import SuffixHybrid.HiSparse.Basic
import SuffixHybrid.Lib.Lru

/-!
# The walk over the slots

A run collects the first references of its host rows, and the walk over the slots in LRU order divides
them into hits and misses. The slots that hold a referenced row are the used ones, all others can be
evicted. There are enough of these for the misses, as no two slots hold the same row.
-/

namespace SuffixHybrid.HiSparse
open Lib

/-! ## First references -/

@[simp] lemma firsts_nil : firsts [] = [] := rfl

lemma firsts_concat (refs : List (ℕ × ℤ)) (e : ℕ × ℤ) :
    firsts (refs ++ [e]) =
      if ((firsts refs).lookup e.2).isSome then firsts refs else firsts refs ++ [(e.2, e.1)] := by
  rw [firsts, List.foldl_append]
  rfl

lemma isSome_lookup_iff {β : Type} {l : List (ℤ × β)} {g : ℤ} :
    (l.lookup g).isSome ↔ g ∈ l.map Prod.fst := by
  rw [List.lookup_isSome_iff, List.mem_map]
  constructor
  · rintro ⟨p, hp, heq⟩
    exact ⟨p, hp, (beq_iff_eq.mp heq).symm⟩
  · rintro ⟨p, hp, rfl⟩
    exact ⟨p, hp, beq_self_eq_true _⟩

lemma mem_of_lookup {β : Type} {l : List (ℤ × β)} {g : ℤ} {b : β} (h : l.lookup g = some b) :
    (g, b) ∈ l := by
  obtain ⟨l₁, l₂, rfl, _⟩ := List.lookup_eq_some_iff.mp h
  exact List.mem_append_right _ List.mem_cons_self

/-- The keys are the referenced rows. -/
lemma mem_firsts_iff {refs : List (ℕ × ℤ)} {g : ℤ} :
    g ∈ (firsts refs).map Prod.fst ↔ g ∈ refs.map Prod.snd := by
  induction refs using List.reverseRecOn with
  | nil => exact Iff.rfl
  | append_singleton refs e ih =>
    rw [firsts_concat, List.map_append, List.mem_append, ← ih]
    split
    next hmem =>
      rw [isSome_lookup_iff] at hmem
      constructor
      · exact Or.inl
      · rintro (h | h)
        · exact h
        · rw [List.map_singleton, List.mem_singleton] at h
          rw [h]
          exact hmem
    next => rw [List.map_append, List.mem_append, List.map_singleton, List.map_singleton]

/-- Every row is listed once. -/
lemma firsts_nodup (refs : List (ℕ × ℤ)) : ((firsts refs).map Prod.fst).Nodup := by
  induction refs using List.reverseRecOn with
  | nil => exact List.nodup_nil
  | append_singleton refs e ih =>
    rw [firsts_concat]
    split
    next => exact ih
    next hmem =>
      rw [isSome_lookup_iff] at hmem
      rw [List.map_append, List.map_singleton]
      exact List.Nodup.append ih (List.nodup_singleton _)
        (List.disjoint_singleton.mpr hmem)

/-- The rows are listed with references to them, in their order. -/
lemma firsts_sublist (refs : List (ℕ × ℤ)) : ((firsts refs).map Prod.swap).Sublist refs := by
  induction refs using List.reverseRecOn with
  | nil => exact List.Sublist.slnil
  | append_singleton refs e ih =>
    rw [firsts_concat]
    split
    next => exact ih.trans (List.sublist_append_left refs [e])
    next =>
      rw [List.map_append, List.map_singleton]
      exact ih.append (List.Sublist.refl _)

/-- The rows are in the order of their first references. -/
lemma firsts_pairwise (refs : List (ℕ × ℤ)) : ((firsts refs).map Prod.fst).Pairwise fun g h =>
    (refs.map Prod.snd).idxOf g < (refs.map Prod.snd).idxOf h := by
  induction refs using List.reverseRecOn with
  | nil => exact List.Pairwise.nil
  | append_singleton refs e ih =>
    have hold {g : ℤ} (hg : g ∈ (firsts refs).map Prod.fst) :
        ((refs ++ [e]).map Prod.snd).idxOf g = (refs.map Prod.snd).idxOf g := by
      rw [List.map_append]
      exact List.idxOf_append_of_mem (mem_firsts_iff.mp hg)
    have hpairs : ((firsts refs).map Prod.fst).Pairwise fun g h =>
        ((refs ++ [e]).map Prod.snd).idxOf g < ((refs ++ [e]).map Prod.snd).idxOf h := by
      refine ih.imp_of_mem fun {g h} hg hh hlt => ?_
      rw [hold hg, hold hh]
      exact hlt
    rw [firsts_concat]
    split
    next => exact hpairs
    next hmem =>
      rw [isSome_lookup_iff, mem_firsts_iff] at hmem
      rw [List.map_append (f := Prod.fst), List.map_singleton, List.pairwise_append]
      refine ⟨hpairs, List.pairwise_singleton _ _, ?_⟩
      intro g hg h hh
      rw [List.mem_singleton.mp hh, hold hg, List.map_append, List.idxOf_append_of_notMem hmem]
      exact Nat.lt_add_right _ (List.idxOf_lt_length_of_mem (mem_firsts_iff.mp hg))

/-- There are as many of them as different rows. -/
lemma length_firsts (refs : List (ℕ × ℤ)) :
    (firsts refs).length = (refs.map Prod.snd).dedup.length := by
  rw [← List.length_map Prod.fst]
  refine List.Perm.length_eq ?_
  rw [List.perm_ext_iff_of_nodup (firsts_nodup refs) (List.nodup_dedup _)]
  intro g
  rw [List.mem_dedup, mem_firsts_iff]

/-! ## Hits and evictable slots -/

namespace Run

/-- The row that a slot holds, `-1` for a slot that there is not. -/
def content (hot : ℕ) (dgi : List ℤ) (s : ℤ) : ℤ :=
  if 0 ≤ s ∧ s < hot then dgi.getD s.toNat (-1) else -1

/-- A slot that holds a referenced row. -/
def used (hot : ℕ) (dgi : List ℤ) (first : List (ℤ × ℕ)) (s : ℤ) : Bool :=
  content hot dgi s ≥ 0 ∧ (first.lookup (content hot dgi s)).isSome

lemma walkSlot_eq (hot : ℕ) (dgi : List ℤ) (first : List (ℤ × ℕ)) (w : Walk) (s : ℤ) :
    walkSlot hot dgi first w s =
      if used hot dgi first s then
        { w with slotOf := (content hot dgi s, .hit s) :: w.slotOf, hits := w.hits ++ [s] }
      else { w with evict := w.evict ++ [s] } := by
  by_cases hused : used hot dgi first s = true
  · rw [if_pos hused]
    rw [used, decide_eq_true_eq] at hused
    exact if_pos hused
  · rw [if_neg hused]
    rw [used, decide_eq_true_eq] at hused
    exact if_neg hused

/-- What the walk finds. -/
lemma walk_eq (hot : ℕ) (dgi lru : List ℤ) (first : List (ℤ × ℕ)) :
    walk hot dgi lru first =
      ⟨((lru.filter (used hot dgi first)).map fun s => (content hot dgi s, Placement.hit s)).reverse,
        lru.filter (used hot dgi first), evictable (used hot dgi first) lru⟩ := by
  induction lru using List.reverseRecOn with
  | nil => rfl
  | append_singleton lru s ih =>
    rw [walk, List.foldl_append, ← walk, ih, List.foldl_cons, List.foldl_nil, walkSlot_eq]
    simp only [evictable, List.filter_append]
    split
    next hused => simp [hused]
    next hused => simp [hused]

variable {hot : ℕ} {dgi lru : List ℤ} {refs : List (ℕ × ℤ)}

/-- A slot in use holds a referenced row. -/
lemma used_iff {s : ℤ} : used hot dgi (firsts refs) s = true ↔
    0 ≤ content hot dgi s ∧ content hot dgi s ∈ refs.map Prod.snd := by
  rw [used, decide_eq_true_eq, isSome_lookup_iff, mem_firsts_iff, ge_iff_le]

lemma content_eq_iff (hlen : dgi.length = hot) {i : ℕ} (hi : i < hot) {g : ℤ} :
    content hot dgi i = g ↔ dgi[i]? = some g := by
  have hrange : 0 ≤ (i : ℤ) ∧ (i : ℤ) < hot := ⟨Int.natCast_nonneg i, Int.ofNat_lt.mpr hi⟩
  rw [content, if_pos hrange, Int.toNat_natCast, List.getD_eq_getElem?_getD,
    List.getElem?_eq_getElem (hlen ▸ hi), Option.getD_some, Option.some_inj]

/-- The slots of a state row: all numbers up to `hot`. -/
def slots (hot : ℕ) : List ℤ := (List.range hot).map Int.ofNat

lemma mem_slots_iff {s : ℤ} : s ∈ slots hot ↔ ∃ i : ℕ, i < hot ∧ s = i := by
  rw [slots, List.mem_map]
  constructor
  · rintro ⟨i, hi, rfl⟩
    exact ⟨i, List.mem_range.mp hi, rfl⟩
  · rintro ⟨i, hi, rfl⟩
    exact ⟨i, List.mem_range.mpr hi, rfl⟩

lemma slots_nodup (hot : ℕ) : (slots hot).Nodup :=
  List.nodup_range.map fun _ _ h => Int.ofNat_inj.mp h

/-- What holds of the two rows of a request: the LRU list has every slot once, and no two slots hold the
same host row. -/
structure Kept (hot : ℕ) (dgi lru : List ℤ) : Prop where
  length : dgi.length = hot
  perm : lru.Perm (slots hot)
  injective : SlotsInjective (0 ≤ ·) dgi

namespace Kept

lemma nodup (h : Kept hot dgi lru) : lru.Nodup := h.perm.nodup_iff.mpr (slots_nodup hot)

lemma mem_iff (h : Kept hot dgi lru) {s : ℤ} : s ∈ lru ↔ ∃ i : ℕ, i < hot ∧ s = i :=
  h.perm.mem_iff.trans mem_slots_iff

/-- A host row that a slot holds is found by the walk. -/
lemma content_of_mem (h : Kept hot dgi lru) {g : ℤ} (hg : g ∈ dgi) :
    ∃ i : ℕ, i < hot ∧ (i : ℤ) ∈ lru ∧ content hot dgi i = g := by
  obtain ⟨i, hi, rfl⟩ := List.mem_iff_getElem.mp hg
  have hlt : i < hot := h.length ▸ hi
  refine ⟨i, hlt, h.mem_iff.mpr ⟨i, hlt, rfl⟩, ?_⟩
  rw [content_eq_iff h.length hlt]
  exact List.getElem?_eq_getElem hi

/-- The slots in use hold different rows. -/
lemma contents_nodup (h : Kept hot dgi lru) :
    ((lru.filter (used hot dgi (firsts refs))).map (content hot dgi)).Nodup := by
  refine (h.nodup.filter _).map_on fun s hs t ht heq => ?_
  obtain ⟨hs, hused⟩ := List.mem_filter.mp hs
  obtain ⟨i, hi, rfl⟩ := h.mem_iff.mp hs
  obtain ⟨j, hj, rfl⟩ := h.mem_iff.mp (List.mem_filter.mp ht).1
  have hgi := (content_eq_iff h.length hi).mp rfl
  have hgj := (content_eq_iff h.length hj).mp heq.symm
  exact congrArg Int.ofNat (h.injective i j _ hgi hgj (used_iff.mp hused).1)

end Kept

/-! ## Misses -/

/-- The host rows of a run that no slot holds, with the positions that load them. -/
def missed (hot : ℕ) (dgi lru : List ℤ) (refs : List (ℕ × ℤ)) : List (ℕ × ℤ) :=
  missesOf (firsts refs) (walk hot dgi lru (firsts refs))

/-- The walk finds the slots of the resident rows. -/
lemma lookup_walk {g : ℤ} {v : Placement} (h : (walk hot dgi lru (firsts refs)).slotOf.lookup g = some v) :
    ∃ s ∈ lru.filter (used hot dgi (firsts refs)), v = .hit s ∧ content hot dgi s = g := by
  have hmem := mem_of_lookup h
  rw [walk_eq, List.mem_reverse] at hmem
  obtain ⟨s, hs, heq⟩ := List.mem_map.mp hmem
  cases heq
  exact ⟨s, hs, rfl, rfl⟩

/-- It finds every referenced row that is resident. -/
lemma isNone_lookup_walk (h : Kept hot dgi lru) (hrefs : ∀ e ∈ refs, 0 ≤ e.2) {g : ℤ}
    (hg : g ∈ refs.map Prod.snd) :
    ((walk hot dgi lru (firsts refs)).slotOf.lookup g).isNone ↔ g ∉ dgi := by
  rw [Option.isNone_iff_eq_none, List.lookup_eq_none_iff]
  constructor
  · intro hnone hmem
    obtain ⟨i, hi, hlru, hcontent⟩ := h.content_of_mem hmem
    obtain ⟨e, he, rfl⟩ := List.mem_map.mp hg
    have hused : used hot dgi (firsts refs) i = true := by
      rw [used_iff, hcontent]
      exact ⟨hrefs e he, hg⟩
    have hfound : (content hot dgi i, Placement.hit i) ∈ (walk hot dgi lru (firsts refs)).slotOf := by
      rw [walk_eq, List.mem_reverse]
      exact List.mem_map.mpr ⟨i, List.mem_filter.mpr ⟨hlru, hused⟩, rfl⟩
    exact bne_iff_ne.mp (hnone _ hfound) hcontent.symm
  · intro hnot p hp
    rw [walk_eq, List.mem_reverse] at hp
    obtain ⟨s, hs, rfl⟩ := List.mem_map.mp hp
    obtain ⟨i, hi, rfl⟩ := h.mem_iff.mp (List.mem_filter.mp hs).1
    have hcontent := (content_eq_iff h.length hi).mp rfl
    rw [bne_iff_ne]
    rintro rfl
    exact hnot (List.mem_of_getElem? hcontent)

/-- The missing rows need no sorting: their positions are increasing. -/
lemma missed_eq (hpos : (refs.map Prod.fst).Pairwise (· < ·)) :
    missed hot dgi lru refs = ((firsts refs).filter fun e =>
      ((walk hot dgi lru (firsts refs)).slotOf.lookup e.1).isNone).map Prod.swap := by
  have hsorted : refs.Pairwise lexLe := (List.pairwise_map.mp hpos).imp fun hlt => Or.inl hlt
  refine List.Pairwise.insertionSort_eq (hsorted.sublist ?_)
  exact (List.filter_sublist.map Prod.swap).trans (firsts_sublist refs)

lemma map_snd_missed (hpos : (refs.map Prod.fst).Pairwise (· < ·)) :
    (missed hot dgi lru refs).map Prod.snd = ((firsts refs).map Prod.fst).filter fun g =>
      ((walk hot dgi lru (firsts refs)).slotOf.lookup g).isNone := by
  rw [missed_eq hpos, List.map_map, List.filter_map]
  rfl

lemma missed_sublist (hpos : (refs.map Prod.fst).Pairwise (· < ·)) :
    (missed hot dgi lru refs).Sublist refs := by
  rw [missed_eq hpos]
  exact (List.filter_sublist.map Prod.swap).trans (firsts_sublist refs)

/-- A missing row is listed once. -/
lemma missed_nodup (hpos : (refs.map Prod.fst).Pairwise (· < ·)) :
    ((missed hot dgi lru refs).map Prod.snd).Nodup := by
  rw [map_snd_missed hpos]
  exact (firsts_nodup refs).filter _

/-- The missing rows are in the order of their first references. -/
lemma missed_pairwise (hpos : (refs.map Prod.fst).Pairwise (· < ·)) :
    ((missed hot dgi lru refs).map Prod.snd).Pairwise fun g h =>
      (refs.map Prod.snd).idxOf g < (refs.map Prod.snd).idxOf h := by
  rw [map_snd_missed hpos]
  exact (firsts_pairwise refs).filter _

namespace Kept
variable (h : Kept hot dgi lru) (hpos : (refs.map Prod.fst).Pairwise (· < ·))
  (hrefs : ∀ e ∈ refs, 0 ≤ e.2)
include h hpos hrefs

/-- The missing rows are the referenced ones that no slot holds. -/
lemma mem_missed_iff {g : ℤ} :
    g ∈ (missed hot dgi lru refs).map Prod.snd ↔ g ∈ refs.map Prod.snd ∧ g ∉ dgi := by
  rw [map_snd_missed hpos, List.mem_filter, mem_firsts_iff]
  refine and_congr_right fun hg => ?_
  exact isNone_lookup_walk h hrefs hg

/-- There are enough slots for the missing rows. -/
lemma length_missed_le (hunion : (refs.map Prod.snd).dedup.length ≤ hot) :
    (missed hot dgi lru refs).length ≤ (evictable (used hot dgi (firsts refs)) lru).length := by
  have hnodup : ((missed hot dgi lru refs).map Prod.snd ++
      (lru.filter (used hot dgi (firsts refs))).map (content hot dgi)).Nodup := by
    refine List.Nodup.append (missed_nodup hpos) h.contents_nodup ?_
    intro g hmiss hhit
    obtain ⟨s, hs, rfl⟩ := List.mem_map.mp hhit
    obtain ⟨i, hi, rfl⟩ := h.mem_iff.mp (List.mem_filter.mp hs).1
    exact ((h.mem_missed_iff hpos hrefs).mp hmiss).2
      (List.mem_of_getElem? ((content_eq_iff h.length hi).mp rfl))
  have hsubset : (missed hot dgi lru refs).map Prod.snd ++
      (lru.filter (used hot dgi (firsts refs))).map (content hot dgi) ⊆ (refs.map Prod.snd).dedup := by
    intro g hg
    rw [List.mem_dedup]
    rcases List.mem_append.mp hg with hmiss | hhit
    · exact ((h.mem_missed_iff hpos hrefs).mp hmiss).1
    · obtain ⟨s, hs, rfl⟩ := List.mem_map.mp hhit
      exact (used_iff.mp (List.mem_filter.mp hs).2).2
  have hle := (List.subperm_of_subset hnodup hsubset).length_le
  have hall := (List.filter_append_perm (used hot dgi (firsts refs)) lru).length_eq
  have hhot := h.perm.length_eq
  rw [slots, List.length_map, List.length_range] at hhot
  simp only [List.length_append, List.length_map, evictable] at hle hall ⊢
  omega

end Kept
end Run
end SuffixHybrid.HiSparse
