import Mathlib.Data.List.Nodup
import Mathlib.Data.List.Perm.Basic
import Mathlib.Tactic.Common

/-!
# Slots in order of their last use

A cache lists its slots from the least to the most recently used one. A step uses some of them, takes the
first `m` of the others for new contents, and puts the slots that it took and those that it used last
(`refresh`). The contents are a list by slot, and `assign` writes the new ones. Contents that no two slots
share stay so if the new ones are in no slot (`SlotsInjective.assign`).
-/

namespace Lib
variable {α β : Type}

/-! ## The order of the slots -/

/-- The slots that a step does not use, the least recently used first. -/
def evictable (used : α → Bool) (lru : List α) : List α := lru.filter fun s => !used s

/-- The order after a step that has taken `m` slots. -/
def refresh (used : α → Bool) (m : ℕ) (lru : List α) : List α :=
  (evictable used lru).drop m ++ (evictable used lru).take m ++ lru.filter used

lemma refresh_perm (used : α → Bool) (m : ℕ) (lru : List α) : (refresh used m lru).Perm lru := by
  have hrotate : ((evictable used lru).drop m ++ (evictable used lru).take m).Perm (evictable used lru) := by
    refine List.perm_append_comm.trans ?_
    rw [List.take_append_drop]
  refine (hrotate.append_right _).trans ?_
  exact List.perm_append_comm.trans (List.filter_append_perm used lru)

/-- In whatever order the slots are listed: a slot that is taken is before every slot that is neither used
nor taken. -/
lemma taken_before {R : α → α → Prop} {used : α → Bool} {m : ℕ} {lru : List α} (h : lru.Pairwise R)
    {s t : α} (hs : s ∈ (evictable used lru).take m) (ht : t ∈ (evictable used lru).drop m) : R s t := by
  have hsorted : (evictable used lru).Pairwise R := h.sublist List.filter_sublist
  rw [← List.take_append_drop m (evictable used lru), List.pairwise_append] at hsorted
  exact hsorted.2.2 s hs t ht

/-- The slots that a step takes or uses come last, and the others stay in order. -/
lemma refresh_pairwise {R R' : α → α → Prop} {used : α → Bool} {m : ℕ} {lru : List α} (h : lru.Pairwise R)
    (hrest : ∀ s ∈ (evictable used lru).drop m, ∀ t ∈ (evictable used lru).drop m, R s t → R' s t)
    (hlast : ∀ s ∈ lru, ∀ t ∈ lru, (t ∈ (evictable used lru).take m ∨ used t) → R' s t) :
    (refresh used m lru).Pairwise R' := by
  have hdrop : ((evictable used lru).drop m).Pairwise R :=
    (h.sublist List.filter_sublist).sublist (List.drop_sublist _ _)
  have hlater {t : α} (ht : t ∈ (evictable used lru).take m ++ lru.filter used) :
      t ∈ lru ∧ (t ∈ (evictable used lru).take m ∨ used t) := by
    rcases List.mem_append.mp ht with ht | ht
    · exact ⟨(List.mem_filter.mp (List.mem_of_mem_take ht)).1, Or.inl ht⟩
    · exact ⟨(List.mem_filter.mp ht).1, Or.inr (List.mem_filter.mp ht).2⟩
  rw [refresh, List.append_assoc, List.pairwise_append]
  refine ⟨hdrop.imp_of_mem fun hs ht => hrest _ hs _ ht, ?_, ?_⟩
  · refine List.pairwise_of_forall_mem_list fun s hs t ht => ?_
    exact hlast s (hlater hs).1 t (hlater ht).1 (hlater ht).2
  · intro s hs t ht
    exact hlast s (List.mem_filter.mp (List.mem_of_mem_drop hs)).1 t (hlater ht).1 (hlater ht).2

/-! ## The contents of the slots -/

/-- Write values to slots, one after the other. -/
def assign (l : List β) (ps : List (ℕ × β)) : List β := ps.foldl (fun l p => l.set p.1 p.2) l

@[simp] lemma assign_nil (l : List β) : assign l [] = l := rfl

@[simp] lemma assign_cons (l : List β) (p : ℕ × β) (ps : List (ℕ × β)) :
    assign l (p :: ps) = assign (l.set p.1 p.2) ps := rfl

@[simp] lemma length_assign (l : List β) (ps : List (ℕ × β)) : (assign l ps).length = l.length := by
  induction ps generalizing l with
  | nil => rfl
  | cons p ps ih => rw [assign_cons, ih, List.length_set]

/-- A slot that is not written keeps its content. -/
lemma getElem?_assign_of_notMem {l : List β} {ps : List (ℕ × β)} {i : ℕ} (h : i ∉ ps.map Prod.fst) :
    (assign l ps)[i]? = l[i]? := by
  induction ps generalizing l with
  | nil => rfl
  | cons p ps ih =>
    rw [List.map_cons, List.mem_cons, not_or] at h
    rw [assign_cons, ih h.2, List.getElem?_set_ne (Ne.symm h.1)]

/-- A slot that is written once has its new content. -/
lemma getElem?_assign_of_mem {l : List β} {ps : List (ℕ × β)} (hnodup : (ps.map Prod.fst).Nodup)
    {p : ℕ × β} (hp : p ∈ ps) (hlt : p.1 < l.length) : (assign l ps)[p.1]? = some p.2 := by
  induction ps generalizing l with
  | nil => cases hp
  | cons q ps ih =>
    rw [List.map_cons, List.nodup_cons] at hnodup
    rw [assign_cons]
    rcases List.mem_cons.mp hp with rfl | hmem
    · rw [getElem?_assign_of_notMem hnodup.1, List.getElem?_set_self hlt]
    · exact ih hnodup.2 hmem (by rw [List.length_set]; exact hlt)

/-- What a slot holds after an assignment: a new content, or its old one. -/
lemma getElem?_assign {l : List β} {ps : List (ℕ × β)} (hnodup : (ps.map Prod.fst).Nodup) {i : ℕ} {b : β}
    (h : (assign l ps)[i]? = some b) : (i, b) ∈ ps ∨ i ∉ ps.map Prod.fst ∧ l[i]? = some b := by
  by_cases hi : i ∈ ps.map Prod.fst
  · obtain ⟨p, hp, rfl⟩ := List.mem_map.mp hi
    have hlt : p.1 < l.length := by
      rw [← length_assign l ps]
      exact (List.getElem?_eq_some_iff.mp h).1
    rw [getElem?_assign_of_mem hnodup hp hlt] at h
    cases h
    exact Or.inl hp
  · rw [getElem?_assign_of_notMem hi] at h
    exact Or.inr ⟨hi, h⟩

/-- No two slots share a content with `P`. -/
def SlotsInjective (P : β → Prop) (l : List β) : Prop :=
  ∀ (i j : ℕ) (b : β), l[i]? = some b → l[j]? = some b → P b → i = j

/-- A content that is in one slot is found there. -/
lemma SlotsInjective.idxOf_eq [DecidableEq β] {P : β → Prop} {l : List β} (h : SlotsInjective P l) {i : ℕ}
    {b : β} (hi : l[i]? = some b) (hb : P b) : l.idxOf b = i := by
  have hlt := List.idxOf_lt_length_of_mem (List.mem_of_getElem? hi)
  refine h _ _ b ?_ hi hb
  rw [List.getElem?_eq_getElem hlt, List.getElem_idxOf]

/-- New contents that differ from each other and from the old ones are in one slot each. -/
lemma SlotsInjective.assign {P : β → Prop} {l : List β} (h : SlotsInjective P l) {ps : List (ℕ × β)}
    (hslots : (ps.map Prod.fst).Nodup) (hvalues : (ps.map Prod.snd).Nodup)
    (hnew : ∀ p ∈ ps, P p.2 → p.2 ∉ l) : SlotsInjective P (assign l ps) := by
  have hone (i j : ℕ) (b : β) (hi : (i, b) ∈ ps) (hj : (j, b) ∈ ps) : i = j :=
    congrArg Prod.fst (List.inj_on_of_nodup_map hvalues hi hj rfl)
  intro i j b hi hj hb
  rcases getElem?_assign hslots hi with hi | ⟨_, hi⟩
  · rcases getElem?_assign hslots hj with hj | ⟨_, hj⟩
    · exact hone i j b hi hj
    · exact absurd (List.mem_of_getElem? hj) (hnew (i, b) hi hb)
  · rcases getElem?_assign hslots hj with hj | ⟨_, hj⟩
    · exact absurd (List.mem_of_getElem? hi) (hnew (j, b) hj hb)
    · exact h i j b hi hj hb

end Lib
