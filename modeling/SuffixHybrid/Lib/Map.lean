import Mathlib.Data.List.AList
import Mathlib.Tactic.Common
import Mathlib.Tactic.Ring

/-!
# Hash maps

Hash maps are Mathlib's association lists with distinct keys. `Map.put` is the insertion of a hash
table: an existing key keeps its place and only its value changes, a new key is added. `HashOrder`
is the order in which an iteration over the keys runs, which a hash table leaves unspecified: it is
any reordering of the keys.
-/

namespace Lib

/-! ## Keys -/

lemma zip_fst_sublist {α β : Type} (l : List α) (m : List β) :
    ((l.zip m).map Prod.fst).Sublist l := by
  induction l generalizing m with
  | nil => exact List.Sublist.refl []
  | cons a l ih =>
    cases m with
    | nil => exact List.nil_sublist _
    | cons b m => exact (ih m).cons_cons a

/-- Keys that a partial map keeps stay in their order. -/
lemma map_filterMap_sublist {α β γ : Type} {f : α → Option β} {key : β → γ} {key' : α → γ}
    (h : ∀ a b, f a = some b → key b = key' a) (l : List α) :
    ((l.filterMap f).map key).Sublist (l.map key') := by
  induction l with
  | nil => exact List.Sublist.refl []
  | cons a l ih =>
    cases hf : f a with
    | none =>
      rw [List.filterMap_cons_none hf, List.map_cons]
      exact ih.cons _
    | some b =>
      rw [List.filterMap_cons_some hf, List.map_cons, List.map_cons, h a b hf]
      exact ih.cons_cons _

/-! ## Maps -/

/-- A finite map with distinct keys. -/
abbrev Map (K V : Type) := AList (fun _ : K => V)

namespace Map
variable {K V : Type} [DecidableEq K]

/-- Insert a value; a key that is present keeps its place. -/
def put (m : Map K V) (k : K) (v : V) : Map K V :=
  if k ∈ m then m.replace k v else m.insert k v

lemma kreplace_cons_eq (k : K) (v w : V) (l : List (Sigma fun _ : K => V)) :
    (⟨k, v⟩ :: l : List (Sigma fun _ : K => V)).kreplace k w = ⟨k, w⟩ :: l := by
  simp [List.kreplace, List.lookmap_cons_some]

lemma kreplace_cons_ne {k a : K} (h : ¬ k = a) (b w : V) (l : List (Sigma fun _ : K => V)) :
    (⟨a, b⟩ :: l : List (Sigma fun _ : K => V)).kreplace k w = ⟨a, b⟩ :: l.kreplace k w := by
  simp [List.kreplace, List.lookmap_cons_none, h]

/-- Overwriting a key of an association list is seen at that key only. -/
lemma dlookup_kreplace (k k' : K) (v : V) (l : List (Sigma fun _ : K => V)) :
    (l.kreplace k v).dlookup k' = if k' = k then (l.dlookup k).map fun _ => v else l.dlookup k' := by
  induction l with
  | nil => simp [List.kreplace]
  | cons e l ih =>
    obtain ⟨a, b⟩ := e
    by_cases h : k = a
    · subst h
      rw [kreplace_cons_eq]
      by_cases h' : k' = k
      · subst h'
        simp
      · simp [h', List.dlookup_cons_ne]
    · rw [kreplace_cons_ne h, List.dlookup_cons_ne l ⟨a, b⟩ h]
      by_cases h' : k' = a
      · subst h'
        simp [Ne.symm h]
      · have hskip (t : List (Sigma fun _ : K => V)) :
            List.dlookup k' (⟨a, b⟩ :: t) = List.dlookup k' t := List.dlookup_cons_ne t ⟨a, b⟩ h'
        rw [hskip, hskip, ih]

/-- A lookup after an insertion. -/
lemma lookup_put (m : Map K V) (k k' : K) (v : V) :
    (m.put k v).lookup k' = if k' = k then some v else m.lookup k' := by
  unfold put
  split
  case isTrue h =>
    obtain ⟨w, hw⟩ := Option.isSome_iff_exists.mp (AList.lookup_isSome.mpr h)
    have hr := dlookup_kreplace k k' v m.entries
    rw [show m.entries.dlookup k = some w from hw] at hr
    exact hr
  case isFalse h =>
    by_cases h' : k' = k
    · subst h'
      simp
    · simp [h', AList.lookup_insert_ne h']

@[simp] lemma lookup_put_self (m : Map K V) (k : K) (v : V) : (m.put k v).lookup k = some v := by
  simp [lookup_put]

@[simp] lemma lookup_put_ne (m : Map K V) {k k' : K} (v : V) (h : k' ≠ k) :
    (m.put k v).lookup k' = m.lookup k' := by
  simp [lookup_put, h]

/-- The keys after an insertion. -/
lemma mem_put (m : Map K V) (k k' : K) (v : V) : k' ∈ m.put k v ↔ k' = k ∨ k' ∈ m := by
  rw [← AList.lookup_isSome, lookup_put, ← AList.lookup_isSome]
  split <;> simp_all

/-- Inserting at a present key leaves the order of the keys as it was. -/
lemma keys_put_of_mem {m : Map K V} {k : K} (h : k ∈ m) (v : V) : (m.put k v).keys = m.keys := by
  simp [put, h]

/-- Inserting the value that a key has changes nothing. -/
lemma put_of_lookup {m : Map K V} {k : K} {v : V} (h : m.lookup k = some v) : m.put k v = m := by
  have hmem : k ∈ m := AList.lookup_isSome.mp (by rw [h, Option.isSome_some])
  rw [put, if_pos hmem]
  apply AList.ext
  exact List.kreplace_self m.nodupKeys (List.of_mem_dlookup h)

/-- A lookup after a removal. -/
lemma lookup_erase_eq (m : Map K V) (k k' : K) :
    (m.erase k).lookup k' = if k' = k then none else m.lookup k' := by
  split
  case isTrue h => rw [h]; exact AList.lookup_erase k m
  case isFalse h => exact AList.lookup_erase_ne h

/-- Insert a list of pairs, from left to right. -/
def update (m : Map K V) (kvs : List (K × V)) : Map K V := kvs.foldl (fun m e => m.put e.1 e.2) m

/-- A value after an update was put by it or was there before. -/
lemma of_lookup_update {m : Map K V} {kvs : List (K × V)} {k : K} {v : V}
    (h : (m.update kvs).lookup k = some v) :
    (k, v) ∈ kvs ∨ m.lookup k = some v ∧ k ∉ kvs.map Prod.fst := by
  induction kvs generalizing m with
  | nil => exact Or.inr ⟨h, by simp⟩
  | cons e kvs ih =>
    rcases ih h with hmem | ⟨hput, hnot⟩
    · exact Or.inl (List.mem_cons_of_mem e hmem)
    · rw [lookup_put] at hput
      split at hput
      case isTrue heq =>
        left
        rw [heq, ← Option.some.inj hput]
        exact List.mem_cons_self
      case isFalse hne => exact Or.inr ⟨hput, by simp [hne, hnot]⟩

@[simp] lemma update_cons (m : Map K V) (e : K × V) (kvs : List (K × V)) :
    m.update (e :: kvs) = (m.put e.1 e.2).update kvs := rfl

/-- A key that is not among the pairs keeps its value. -/
lemma lookup_update_of_notMem {m : Map K V} {kvs : List (K × V)} {k : K}
    (h : k ∉ kvs.map Prod.fst) : (m.update kvs).lookup k = m.lookup k := by
  induction kvs generalizing m with
  | nil => rfl
  | cons e kvs ih =>
    rw [List.map_cons, List.mem_cons, not_or] at h
    rw [update_cons, ih h.2, lookup_put_ne m e.2 h.1]

/-- Distinct keys get their values. -/
lemma lookup_update_of_mem {m : Map K V} {kvs : List (K × V)} (hkeys : (kvs.map Prod.fst).Nodup) {k : K}
    {v : V} (h : (k, v) ∈ kvs) : (m.update kvs).lookup k = some v := by
  induction kvs generalizing m with
  | nil => cases h
  | cons e kvs ih =>
    obtain ⟨hnew, hrest⟩ := List.nodup_cons.mp hkeys
    rw [update_cons]
    rcases List.mem_cons.mp h with heq | hmem
    · cases heq
      rw [lookup_update_of_notMem hnew, lookup_put_self]
    · exact ih hrest hmem

omit [DecidableEq K] in
lemma nodup_keys_zip {ks : List K} (hks : ks.Nodup) (vs : List V) : ((ks.zip vs).map Prod.fst).Nodup :=
  hks.sublist (zip_fst_sublist ks vs)

lemma lookup_update_zip {m : Map K V} {ks : List K} {vs : List V} (hks : ks.Nodup) {k : K} {v : V}
    (h : (k, v) ∈ ks.zip vs) : (m.update (ks.zip vs)).lookup k = some v :=
  lookup_update_of_mem (nodup_keys_zip hks vs) h

/-- A search by a key that distinguishes the elements. -/
lemma find?_of_nodup_keys {α : Type} (key : α → K) {l : List α} (hkeys : (l.map key).Nodup) {a : α}
    (h : a ∈ l) : l.find? (fun b => key b = key a) = some a := by
  induction l with
  | nil => cases h
  | cons b l ih =>
    obtain ⟨hnew, hrest⟩ := List.nodup_cons.mp hkeys
    rcases List.mem_cons.mp h with rfl | hmem
    · rw [List.find?_cons_of_pos (by simp)]
    · have hne : key b ≠ key a := fun heq => hnew (heq ▸ List.mem_map_of_mem hmem)
      rw [List.find?_cons_of_neg (by simp [hne])]
      exact ih hrest hmem

/-- A loop over pairs with distinct keys, each of which changes its own key only. -/
lemma lookup_foldl_of_local {α : Type} {f : Map K V → K × α → Map K V}
    {g : K × α → Option V → Option V}
    (hf : ∀ m e k, (f m e).lookup k = if k = e.1 then g e (m.lookup k) else m.lookup k)
    {es : List (K × α)} (hkeys : (es.map Prod.fst).Nodup) (m : Map K V) :
    (∀ k, k ∉ es.map Prod.fst → (es.foldl f m).lookup k = m.lookup k) ∧
      ∀ e ∈ es, (es.foldl f m).lookup e.1 = g e (m.lookup e.1) := by
  induction es generalizing m with
  | nil => exact ⟨fun _ _ => rfl, fun e he => by cases he⟩
  | cons a es ih =>
    rw [List.map_cons, List.nodup_cons] at hkeys
    obtain ⟨hout, hin⟩ := ih hkeys.2 (f m a)
    refine ⟨fun k hk => ?_, fun e he => ?_⟩
    · rw [List.map_cons, List.mem_cons, not_or] at hk
      rw [List.foldl_cons, hout k hk.2, hf, if_neg hk.1]
    · rw [List.foldl_cons]
      rcases List.mem_cons.mp he with rfl | hmem
      · rw [hout e.1 hkeys.1, hf, if_pos rfl]
      · have hne : e.1 ≠ a.1 := fun heq => hkeys.1 (heq ▸ List.mem_map_of_mem hmem)
        rw [hin e hmem, hf, if_neg hne]

/-- The pairs of a map, in its order. -/
def items (m : Map K V) : List (K × V) := m.entries.map fun e => (e.1, e.2)

lemma mem_items {m : Map K V} {k : K} {v : V} : (k, v) ∈ m.items ↔ m.lookup k = some v := by
  rw [← Option.mem_def, AList.mem_lookup_iff, items, List.mem_map]
  constructor
  · rintro ⟨⟨a, b⟩, hmem, heq⟩
    cases heq
    exact hmem
  · exact fun hmem => ⟨⟨k, v⟩, hmem, rfl⟩

omit [DecidableEq K] in
lemma nodup_keys_items (m : Map K V) : (m.items.map Prod.fst).Nodup := by
  rw [items, List.map_map]
  exact m.nodupKeys

/-- The sum of the values of a map. -/
def total (m : Map K ℤ) : ℤ := (m.entries.map fun e => e.2).sum

/-- A new value at a present key moves the sum by the difference. -/
lemma total_put {m : Map K ℤ} {k : K} {v : ℤ} (h : m.lookup k = some v) (w : ℤ) :
    (m.put k w).total = m.total - v + w := by
  have hsum (l : List (Sigma fun _ : K => ℤ)) (hl : l.dlookup k = some v) :
      ((l.kreplace k w).map fun e => e.2).sum = (l.map fun e => e.2).sum - v + w := by
    induction l with
    | nil => cases hl
    | cons e l ih =>
      obtain ⟨a, b⟩ := e
      by_cases heq : k = a
      · subst heq
        rw [List.dlookup_cons_eq] at hl
        cases hl
        rw [kreplace_cons_eq, List.map_cons, List.sum_cons, List.map_cons, List.sum_cons]
        ring
      · have hskip : List.dlookup k (⟨a, b⟩ :: l : List (Sigma fun _ : K => ℤ)) = List.dlookup k l :=
          List.dlookup_cons_ne l ⟨a, b⟩ heq
        rw [hskip] at hl
        rw [kreplace_cons_ne heq, List.map_cons, List.sum_cons, ih hl, List.map_cons, List.sum_cons]
        ring
  rw [put, if_pos (AList.lookup_isSome.mp (by rw [h, Option.isSome_some]))]
  exact hsum m.entries h

/-- A present key has a value. -/
lemma exists_lookup {m : Map K V} {k : K} (h : k ∈ m) : ∃ v, m.lookup k = some v :=
  Option.isSome_iff_exists.mp (AList.lookup_isSome.mpr h)

/-- A key with a value is present. -/
lemma mem_of_lookup {m : Map K V} {k : K} {v : V} (h : m.lookup k = some v) : k ∈ m :=
  AList.lookup_isSome.mp (by simp [h])

end Map

/-- An iteration order over hash map keys: any reordering of them. -/
structure HashOrder (K : Type) where
  order : List K → List K
  perm : ∀ ks, (order ks).Perm ks

namespace HashOrder
variable {K : Type}

/-- The order in which the model happens to store the keys. -/
def stored (K : Type) : HashOrder K := ⟨id, List.Perm.refl⟩

@[simp] lemma mem_order (o : HashOrder K) {ks : List K} {k : K} : k ∈ o.order ks ↔ k ∈ ks :=
  (o.perm ks).mem_iff

lemma nodup_order (o : HashOrder K) {ks : List K} : (o.order ks).Nodup ↔ ks.Nodup :=
  (o.perm ks).nodup_iff

end HashOrder
end Lib
