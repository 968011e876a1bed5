import Mathlib.Data.Finset.Card
import Mathlib.Data.Set.Lattice
import Mathlib.Tactic.Common

/-!
# Wrapping tickets

Arrivals draw tickets from one counter, which an atomic increment wraps to 0 behind the last. Each of `n`
arrivals gets its own ticket below `n`; the one with the ticket `n - 1` comes when all others have, and leaves
the counter as it was before the first. `storeAll` runs a list of writes to a memory.
-/

namespace Lib

/-! ## Tickets -/

/-- The atomic increment with wrap: 0 behind `last`. -/
def incWrap (last old : ℕ) : ℕ := if last ≤ old then 0 else old + 1

/-- The arrivals below `n` that have drawn. -/
def arrivals (n : ℕ) (drawn : ℕ → Option ℕ) : Finset ℕ :=
  (Finset.range n).filter fun i => (drawn i).isSome

/-- The counter and the tickets that `n` arrivals have drawn from it. -/
structure Tickets (n : ℕ) (drawn : ℕ → Option ℕ) (c : ℕ) : Prop where
  counter : c = if (arrivals n drawn).card = n then 0 else (arrivals n drawn).card
  lt : ∀ i < n, ∀ t, drawn i = some t → t < (arrivals n drawn).card
  inj : ∀ i < n, ∀ j < n, ∀ t, drawn i = some t → drawn j = some t → i = j

lemma mem_arrivals {n : ℕ} {drawn : ℕ → Option ℕ} {i : ℕ} :
    i ∈ arrivals n drawn ↔ i < n ∧ (drawn i).isSome := by
  rw [arrivals, Finset.mem_filter, Finset.mem_range]

lemma arrivals_card_le (n : ℕ) (drawn : ℕ → Option ℕ) : (arrivals n drawn).card ≤ n := by
  have h := Finset.card_filter_le (Finset.range n) fun i => (drawn i).isSome
  rwa [Finset.card_range] at h

lemma arrivals_card_eq {n : ℕ} {drawn : ℕ → Option ℕ} :
    (arrivals n drawn).card = n ↔ ∀ i < n, (drawn i).isSome := by
  have h := Finset.card_filter_eq_iff (s := Finset.range n) (p := fun i => (drawn i).isSome = true)
  rw [Finset.card_range] at h
  rw [arrivals, h]
  exact ⟨fun h i hi => h i (Finset.mem_range.mpr hi), fun h i hi => h i (Finset.mem_range.mp hi)⟩

/-- Nobody has drawn. -/
lemma Tickets.zero (n : ℕ) : Tickets n (fun _ => none) 0 := by
  have hcard : (arrivals n fun _ => none).card = 0 := by
    rw [Finset.card_eq_zero, arrivals, Finset.filter_eq_empty_iff]
    exact fun _ _ h => by cases h
  constructor
  case counter =>
    rw [hcard]
    split
    · rfl
    · rfl
  case lt => exact fun _ _ _ h => by cases h
  case inj => exact fun _ _ _ _ _ h => by cases h

variable {n : ℕ} {drawn : ℕ → Option ℕ} {c : ℕ}

lemma arrivals_update {i : ℕ} (hi : i < n) (t : ℕ) :
    arrivals n (Function.update drawn i (some t)) = insert i (arrivals n drawn) := by
  ext j
  rw [Finset.mem_insert, mem_arrivals, mem_arrivals]
  by_cases h : j = i
  · subst h
    simp only [Function.update_self, Option.isSome_some, and_true, true_or, hi]
  · simp only [Function.update_of_ne h, h, false_or]

lemma Tickets.counter_of_none (h : Tickets n drawn c) {i : ℕ} (hi : i < n) (hd : drawn i = none) :
    c = (arrivals n drawn).card ∧ c < n := by
  have hne : (arrivals n drawn).card ≠ n := fun e => by
    have := arrivals_card_eq.mp e i hi
    rw [hd] at this
    cases this
  have hle := arrivals_card_le n drawn
  have hc := h.counter
  rw [if_neg hne] at hc
  omega

/-- One more arrival draws. -/
theorem Tickets.draw (h : Tickets n drawn c) {i : ℕ} (hi : i < n) (hd : drawn i = none) :
    Tickets n (Function.update drawn i (some c)) (incWrap (n - 1) c) := by
  obtain ⟨hc, hlt⟩ := h.counter_of_none hi hd
  have hni : i ∉ arrivals n drawn := fun hm => by
    have := (mem_arrivals.mp hm).2
    rw [hd] at this
    cases this
  have hcard : (arrivals n (Function.update drawn i (some c))).card = c + 1 := by
    rw [arrivals_update hi, Finset.card_insert_of_notMem hni, hc]
  constructor
  case counter =>
    rw [hcard, incWrap]
    by_cases hl : c + 1 = n
    · rw [if_pos (by omega), if_pos hl]
    · rw [if_neg (by omega), if_neg hl]
  case lt =>
    intro j hj t ht
    rw [hcard]
    by_cases e : j = i
    · subst e
      rw [Function.update_self] at ht
      cases ht
      exact Nat.lt_succ_self c
    · rw [Function.update_of_ne e] at ht
      have := h.lt j hj t ht
      omega
  case inj =>
    intro j hj k hk t htj htk
    by_cases ej : j = i
    · by_cases ek : k = i
      · rw [ej, ek]
      · subst ej
        rw [Function.update_self] at htj
        rw [Function.update_of_ne ek] at htk
        cases htj
        have := h.lt k hk c htk
        omega
    · rw [Function.update_of_ne ej] at htj
      by_cases ek : k = i
      · subst ek
        rw [Function.update_self] at htk
        cases htk
        have := h.lt j hj c htj
        omega
      · rw [Function.update_of_ne ek] at htk
        exact h.inj j hj k hk t htj htk

/-- The last ticket is drawn when all others are. -/
lemma Tickets.all_of_last (h : Tickets n drawn c) {i : ℕ} (hi : i < n)
    (hl : drawn i = some (n - 1)) : ∀ j < n, (drawn j).isSome := by
  have hlt := h.lt i hi _ hl
  have hle := arrivals_card_le n drawn
  exact arrivals_card_eq.mp (by omega)

/-- When all have drawn, the counter is 0 again and one of them has the last ticket. -/
theorem Tickets.all (h : Tickets n drawn c) (hn : 0 < n) (hall : ∀ i < n, (drawn i).isSome) :
    c = 0 ∧ ∃ i < n, drawn i = some (n - 1) := by
  have hcard := arrivals_card_eq.mpr hall
  have hc := h.counter
  rw [if_pos hcard] at hc
  refine ⟨hc, ?_⟩
  -- the tickets are distinct and below `n`, so every number below `n` is one
  have hmaps : ∀ i ∈ Finset.range n, (drawn i).getD 0 ∈ Finset.range n := fun i hi => by
    rw [Finset.mem_range] at hi ⊢
    obtain ⟨t, ht⟩ := Option.isSome_iff_exists.mp (hall i hi)
    have := h.lt i hi t ht
    rw [ht]
    change t < n
    omega
  have hinj : Set.InjOn (fun i => (drawn i).getD 0) (Finset.range n) := fun i hi j hj e => by
    rw [Finset.coe_range, Set.mem_Iio] at hi hj
    obtain ⟨t, ht⟩ := Option.isSome_iff_exists.mp (hall i hi)
    obtain ⟨u, hu⟩ := Option.isSome_iff_exists.mp (hall j hj)
    simp only [ht, hu, Option.getD_some] at e
    exact h.inj i hi j hj t ht (e ▸ hu)
  obtain ⟨i, hi, he⟩ := Finset.surj_on_of_inj_on_of_card_le (fun i _ => (drawn i).getD 0) hmaps
    (fun i j hi hj e => hinj (Finset.mem_coe.mpr hi) (Finset.mem_coe.mpr hj) e) le_rfl (n - 1)
    (Finset.mem_range.mpr (by omega))
  rw [Finset.mem_range] at hi
  obtain ⟨t, ht⟩ := Option.isSome_iff_exists.mp (hall i hi)
  rw [ht, Option.getD_some] at he
  exact ⟨i, hi, he ▸ ht⟩

/-! ## Writes -/

/-- A list of writes to a memory. -/
def storeAll {K V : Type} [DecidableEq K] (m : K → V) (w : List (K × V)) : K → V :=
  w.foldl (fun m p => Function.update m p.1 p.2) m

section Stores
variable {K V : Type} [DecidableEq K]

lemma storeAll_of_notMem {w : List (K × V)} {k : K} (m : K → V) (h : ∀ p ∈ w, p.1 ≠ k) :
    storeAll m w k = m k := by
  induction w generalizing m with
  | nil => rfl
  | cons p w ih =>
    refine (ih _ fun q hq => h q (List.mem_cons_of_mem _ hq)).trans ?_
    exact Function.update_of_ne (h p List.mem_cons_self).symm _ _

/-- Where all writes to a place write one value, or it is there before, it is there. -/
lemma storeAll_of_agree {w : List (K × V)} {k : K} {v : V} (m : K → V) (h : ∀ p ∈ w, p.1 = k → p.2 = v)
    (hex : m k = v ∨ ∃ p ∈ w, p.1 = k) : storeAll m w k = v := by
  induction w generalizing m with
  | nil =>
    obtain hm | ⟨p, hp, _⟩ := hex
    · exact hm
    · cases hp
  | cons p w ih =>
    refine ih _ (fun q hq => h q (List.mem_cons_of_mem _ hq)) ?_
    dsimp only
    by_cases e : p.1 = k
    · left
      rw [e, Function.update_self]
      exact h p List.mem_cons_self e
    · rw [Function.update_of_ne (Ne.symm e)]
      obtain hm | ⟨q, hq, hqk⟩ := hex
      · exact .inl hm
      · obtain rfl | hq := List.mem_cons.mp hq
        · exact absurd hqk e
        · exact .inr ⟨q, hq, hqk⟩

/-- Writes to distinct places all stay. -/
lemma storeAll_of_nodup {w : List (K × V)} {m : K → V} (hw : (w.map Prod.fst).Nodup) {k : K} {v : V}
    (h : (k, v) ∈ w) : storeAll m w k = v := by
  refine storeAll_of_agree m (fun p hp e => ?_) (.inr ⟨(k, v), h, rfl⟩)
  exact congrArg Prod.snd (List.inj_on_of_nodup_map hw hp h e)

variable {ι : Type} {xs : List ι} (key : ι → K) (val : ι → V) (m : K → V)

/-- A loop over distinct places, at a place it writes. -/
lemma storeAll_map (hinj : Function.Injective key) {i : ι} (h : i ∈ xs) :
    storeAll m (xs.map fun i => (key i, val i)) (key i) = val i := by
  refine storeAll_of_agree m (fun p hp e => ?_) (.inr ⟨(key i, val i), List.mem_map.mpr ⟨i, h, rfl⟩, rfl⟩)
  obtain ⟨j, _, rfl⟩ := List.mem_map.mp hp
  exact congrArg val (hinj e)

/-- The same, at another place. -/
lemma storeAll_map_of_ne {k : K} (h : ∀ i ∈ xs, key i ≠ k) :
    storeAll m (xs.map fun i => (key i, val i)) k = m k := by
  refine storeAll_of_notMem m fun p hp => ?_
  obtain ⟨j, hj, rfl⟩ := List.mem_map.mp hp
  exact h j hj

end Stores

end Lib

/-!
## Exact stores

The stores of a launch are those of a function on a set of cells, each once: what its programs store is put together
from what they store alone (`Exactly.flatMap`). Two such launches leave the same memory, whatever the order of their
stores (`Exactly.storeAll_eq`).
-/

namespace Lib
variable {K V P : Type} {live : K → Prop} {val : K → V}

/-- The stores are those of `val` on the live cells, each once. -/
structure Exactly (stores : List (K × V)) (live : K → Prop) (val : K → V) : Prop where
  nodup : stores.Nodup
  mem : ∀ e, e ∈ stores ↔ live e.1 ∧ e.2 = val e.1

namespace Exactly

lemma nil (val : K → V) : Exactly [] (fun _ => False) val :=
  ⟨List.nodup_nil, fun _ => ⟨fun h => absurd h List.not_mem_nil, fun h => h.1.elim⟩⟩

lemma congr {stores : List (K × V)} {live' : K → Prop} (h : Exactly stores live val) (hlive : ∀ k, live k ↔ live' k) :
    Exactly stores live' val := ⟨h.nodup, fun e => (h.mem e).trans (and_congr_left fun _ => hlive e.1)⟩

/-- Distinct cells, one after the other. -/
lemma map {ι : Type} {is : List ι} {cell : ι → K} {v : ι → V} (his : is.Nodup)
    (hinj : ∀ i ∈ is, ∀ j ∈ is, cell i = cell j → i = j) (hv : ∀ i ∈ is, v i = val (cell i)) :
    Exactly (is.map fun i => (cell i, v i)) (fun k => ∃ i ∈ is, cell i = k) val where
  nodup := his.map_on fun i hi j hj h => hinj i hi j hj (congrArg Prod.fst h)
  mem e := by
    rw [List.mem_map]
    constructor
    · rintro ⟨i, hi, rfl⟩
      exact ⟨⟨i, hi, rfl⟩, hv i hi⟩
    · obtain ⟨k, x⟩ := e
      rintro ⟨⟨i, hi, rfl⟩, hval⟩
      exact ⟨i, hi, Prod.ext rfl ((hv i hi).trans hval.symm)⟩

/-- Stores behind others. -/
lemma append {stores stores' : List (K × V)} {live' : K → Prop} (h : Exactly stores live val)
    (h' : Exactly stores' live' val) (hdisj : ∀ k, live k → ¬live' k) :
    Exactly (stores ++ stores') (fun k => live k ∨ live' k) val where
  nodup := List.nodup_append.mpr ⟨h.nodup, h'.nodup, fun e he e' he' heq =>
    hdisj e.1 ((h.mem e).mp he).1 (heq ▸ ((h'.mem e').mp he').1)⟩
  mem e := by rw [List.mem_append, h.mem, h'.mem, or_and_right]

/-- Programs that share no cell. -/
lemma flatMap {ps : List P} {f : P → List (K × V)} {cell : P → K → Prop} (h : ∀ p ∈ ps, Exactly (f p) (cell p) val)
    (hdisj : ps.Pairwise fun p q => ∀ k, cell p k → ¬cell q k) :
    Exactly (ps.flatMap f) (fun k => ∃ p ∈ ps, cell p k) val where
  nodup := by
    refine List.nodup_flatMap.mpr ⟨fun p hp => (h p hp).nodup, ?_⟩
    refine hdisj.imp_of_mem fun {p q} hp hq hpq e hep heq => ?_
    exact hpq e.1 (((h p hp).mem e).mp hep).1 (((h q hq).mem e).mp heq).1
  mem e := by
    rw [List.mem_flatMap]
    constructor
    · rintro ⟨p, hp, he⟩
      obtain ⟨hcell, hval⟩ := ((h p hp).mem e).mp he
      exact ⟨⟨p, hp, hcell⟩, hval⟩
    · rintro ⟨⟨p, hp, hcell⟩, hval⟩
      exact ⟨p, hp, ((h p hp).mem e).mpr ⟨hcell, hval⟩⟩

/-- Programs that are told apart by their cells. -/
lemma grid {ps : List P} {f : P → List (K × V)} {cell : P → K → Prop} (hps : ps.Nodup)
    (h : ∀ p ∈ ps, Exactly (f p) (cell p) val) (hinj : ∀ p ∈ ps, ∀ q ∈ ps, ∀ k, cell p k → cell q k → p = q) :
    Exactly (ps.flatMap f) (fun k => ∃ p ∈ ps, cell p k) val :=
  flatMap h (hps.imp_of_mem fun hp hq hne k hpk hqk => hne (hinj _ hp _ hq k hpk hqk))

lemma ite {stores : List (K × V)} {c : Prop} [Decidable c] (h : c → Exactly stores live val) :
    Exactly (if c then stores else []) (fun k => c ∧ live k) val := by
  split_ifs with hc
  · exact (h hc).congr fun k => (and_iff_right hc).symm
  · exact (nil val).congr fun k => ⟨False.elim, fun h => hc h.1⟩

/-- A store under a condition. -/
lemma single {c : Prop} [Decidable c] {cell : K} {v : V} (hv : c → v = val cell) :
    Exactly (if c then [(cell, v)] else []) (fun k => c ∧ cell = k) val := by
  refine ite fun hc => ⟨List.nodup_singleton _, fun e => ?_⟩
  rw [List.mem_singleton]
  constructor
  · rintro rfl
    exact ⟨rfl, hv hc⟩
  · rintro ⟨rfl, he⟩
    exact Prod.ext rfl (he.trans (hv hc).symm)

/-- What a launch leaves, in any order of its stores. -/
lemma memory [DecidableEq K] {stores order : List (K × V)} (h : Exactly stores live val) (ho : order.Perm stores)
    (m : K → V) (k : K) : (live k → storeAll m order k = val k) ∧ (¬live k → storeAll m order k = m k) := by
  have hmem : ∀ e, e ∈ order ↔ live e.1 ∧ e.2 = val e.1 := fun e => ho.mem_iff.trans (h.mem e)
  refine ⟨fun hk => ?_, fun hk => ?_⟩
  · refine storeAll_of_agree m (fun e he hek => ?_) (.inr ⟨(k, val k), (hmem _).mpr ⟨hk, rfl⟩, rfl⟩)
    rw [((hmem e).mp he).2, hek]
  · exact storeAll_of_notMem m fun e he hek => hk (hek ▸ ((hmem e).mp he).1)

end Exactly
end Lib
