import Mathlib.Combinatorics.Colex
import SuffixHybrid.Lib.Best
import SuffixHybrid.Lib.Run
import SuffixHybrid.Lib.Scan
import SuffixHybrid.Lib.Top
import SuffixHybrid.Lib.Word

/-!
# The gate

A program of the first launch gates a token: it takes the largest logit `K` times, writes the experts with their
weights, and sets a bit for each expert in the token's bitmap. The experts are the `K` largest, distinct even for a row
of NaN (`gateRow_ids`), and the bitmap is the set of them (`gateRow_map`).
-/

namespace SuffixHybrid.MoeRoute
open Lib

/-- The arithmetic of the weights: `_exp(v - top)`, the sigmoid of the shared expert's logit, and fp32. -/
structure Arith (α W : Type) where
  exp : α → α → W
  sigmoid : Option α → W
  zero : W
  one : W
  add : W → W → W
  mul : W → W → W
  inv : W → W
  isZero : W → Bool

/-- What a gated token has in memory: its weights, its experts and its bitmap. -/
structure Row (W : Type) where
  w : ℕ → W
  ids : ℕ → ℕ
  map : ℕ → ℕ

/-- The columns that are left and what is picked of the others. -/
structure Picks (α W : Type) where
  x : ℕ → α
  free : ℕ → Bool
  ids : ℕ → ℕ
  num : ℕ → W
  den : W

section Gate
variable {α W : Type} [LinearOrder α] [OrderBot α] (A : Arith α W) (E K : ℕ)

/-- A logit: NaN counts as -inf. -/
def score (logits : ℕ → Option α) (c : ℕ) : α := (logits c).getD ⊥

/-- `tl.max` over the columns. -/
def colMax (x : ℕ → α) : α := (List.range E).foldl (fun m c => max m (x c)) ⊥

/-- `tl.min` over the columns with `p`, and `E` for the others. -/
def colMin (p : ℕ → Bool) : ℕ := (List.range E).foldl (fun m c => min m (if p c then c else E)) E

/-- A round of the loop. -/
def pick (top : α) (s : Picks α W) (k : ℕ) : Picks α W :=
  let v := colMax E s.x
  let e := colMin E fun c => s.x c = v && s.free c
  let n := A.exp v top
  { x := fun c => if c = e then ⊥ else s.x c
    free := fun c => s.free c && c ≠ e
    ids := Function.update s.ids k e
    num := Function.update s.num k n
    den := A.add s.den n }

/-- Before the first round. -/
def picks0 (logits : ℕ → Option α) : Picks α W :=
  ⟨score logits, fun _ => true, fun _ => E, fun _ => A.zero, A.zero⟩

/-- `_gate_row`. -/
def gateRow (logits : ℕ → Option α) : Row W :=
  let x := score logits
  let s := (List.range K).foldl (pick A E (colMax E x)) (picks0 A E logits)
  let inv := if A.isZero s.den then A.one else A.inv s.den
  { w := fun kk => if kk = K then A.sigmoid (logits E) else A.mul (s.num kk) inv
    ids := s.ids
    map := fun word => u32 ((List.range 16).map fun kk =>
      if s.ids kk / 32 = word ∧ kk ≤ K then 2 ^ (s.ids kk % 32) else 0).sum }

/-- The experts of a row, by falling logit, ties to the lower one. -/
def topK (logits : ℕ → Option α) : List ℕ := largest (score logits) E K

/-- The weight of an expert of the row: its share, or the sigmoid for the shared expert. -/
def routeWeight (logits : ℕ → Option α) (kk : ℕ) : W :=
  let exps := (topK E K logits).map fun e => A.exp (score logits e) (colMax E (score logits))
  let den := exps.foldl A.add A.zero
  if kk = K then A.sigmoid (logits E) else A.mul (exps.getD kk A.zero) (if A.isZero den then A.one else A.inv den)

/-! ## Columns -/

variable {A E K} {x : ℕ → α} {p : ℕ → Bool} {c : ℕ}

lemma le_colMax (hc : c < E) : x c ≤ colMax E x := (foldl_max_le_iff.mp le_rfl).2 c (List.mem_range.mpr hc)

lemma exists_colMax (hE : 0 < E) : ∃ c < E, x c = colMax E x := by
  obtain ⟨c, hc, hmax⟩ := Finset.exists_max_image (Finset.range E) x ⟨0, Finset.mem_range.mpr hE⟩
  rw [Finset.mem_range] at hc
  refine ⟨c, hc, le_antisymm (le_colMax hc) (foldl_max_le_iff.mpr ⟨bot_le, fun d hd => ?_⟩)⟩
  exact hmax d (Finset.mem_range.mpr (List.mem_range.mp hd))

lemma colMin_spec (h : ∃ c < E, p c = true) :
    colMin E p < E ∧ p (colMin E p) = true ∧ ∀ c < E, p c = true → colMin E p ≤ c := by
  obtain ⟨e, he, hmin⟩ := Finset.exists_min_image ((Finset.range E).filter fun c => p c = true) id (by
    obtain ⟨c, hc, hp⟩ := h
    exact ⟨c, Finset.mem_filter.mpr ⟨Finset.mem_range.mpr hc, hp⟩⟩)
  obtain ⟨he, hp⟩ := Finset.mem_filter.mp he
  rw [Finset.mem_range] at he
  have hle : ∀ c < E, p c = true → e ≤ c := fun c hc hpc => hmin c (Finset.mem_filter.mpr ⟨Finset.mem_range.mpr hc, hpc⟩)
  have heq : colMin E p = e := by
    refine le_antisymm ?_ (le_foldl_min_iff.mpr ⟨he.le, fun c hc => ?_⟩)
    · have := (le_foldl_min_iff.mp (le_refl (colMin E p))).2 e (List.mem_range.mpr he)
      rwa [if_pos hp] at this
    · split_ifs with hpc
      · exact hle c (List.mem_range.mp hc) hpc
      · exact he.le
  rw [heq]
  exact ⟨he, hp, hle⟩

/-! ## Picks -/

variable {logits : ℕ → Option α} {k : ℕ} {s : Picks α W}

/-- The picks before a round: each was the first of the best that were left. -/
structure Picked (A : Arith α W) (E : ℕ) (logits : ℕ → Option α) (k : ℕ) (s : Picks α W) : Prop where
  ids_lt : ∀ i < k, s.ids i < E
  rest : ∀ i, k ≤ i → s.ids i = E
  distinct : ∀ i < k, ∀ j < i, s.ids i ≠ s.ids j
  best : ∀ i < k, ∀ c < E, (∀ j ≤ i, c ≠ s.ids j) → Ahead (score logits) (s.ids i) c
  x : ∀ c < E, (∀ i < k, s.ids i ≠ c) → s.x c = score logits c
  taken : ∀ i < k, s.x (s.ids i) = ⊥
  free : ∀ c < E, s.free c = true ↔ ∀ i < k, s.ids i ≠ c
  num : ∀ i < k, s.num i = A.exp (score logits (s.ids i)) (colMax E (score logits))
  den : s.den = (List.range k).foldl (fun d i => A.add d (s.num i)) A.zero

lemma picked_zero : Picked A E logits 0 (picks0 A E logits) where
  ids_lt := nofun
  rest _ _ := rfl
  distinct := nofun
  best := nofun
  x _ _ _ := rfl
  taken := nofun
  free _ _ := ⟨fun _ => nofun, fun _ => rfl⟩
  num := nofun
  den := rfl

/-- Some column is free before each of the first `E` rounds. -/
lemma Picked.exists_free (h : Picked A E logits k s) (hk : k < E) : ∃ c < E, s.free c = true := by
  by_contra hnone
  have hsub : Finset.range E ⊆ (Finset.range k).image s.ids := fun c hc => by
    rw [Finset.mem_range] at hc
    by_contra hc'
    refine hnone ⟨c, hc, (h.free c hc).mpr fun i hi e => hc' ?_⟩
    exact Finset.mem_image.mpr ⟨i, Finset.mem_range.mpr hi, e⟩
  have hcard := (Finset.card_le_card hsub).trans Finset.card_image_le
  rw [Finset.card_range, Finset.card_range] at hcard
  omega

/-- The round takes the first of the best columns that are free. -/
lemma Picked.next (h : Picked A E logits k s) (hk : k < E) :
    ∃ e < E, (pick A E (colMax E (score logits)) s k).ids = Function.update s.ids k e ∧ s.free e = true ∧
      colMax E s.x = score logits e ∧ e = colMin E (fun c => decide (s.x c = colMax E s.x) && s.free c) ∧
      ∀ c < E, s.free c = true → c ≠ e → Ahead (score logits) e c := by
  obtain ⟨f, hf, hff⟩ := h.exists_free hk
  have hex : ∃ c < E, (decide (s.x c = colMax E s.x) && s.free c) = true := by
    obtain ⟨c, hc, hmax⟩ := exists_colMax (x := s.x) (Nat.zero_lt_of_lt hf)
    by_cases hfree : s.free c = true
    · exact ⟨c, hc, by rw [hfree, hmax]; simp⟩
    · -- a column that is taken holds -inf, so every free one is as large
      have hbot : s.x c = ⊥ := by
        by_contra hne
        exact hfree ((h.free c hc).mpr fun i hi e => hne (e ▸ h.taken i hi))
      have hfbot : s.x f = colMax E s.x := le_antisymm (le_colMax hf) (hmax ▸ hbot ▸ bot_le)
      exact ⟨f, hf, by rw [hff, hfbot]; simp⟩
  obtain ⟨he, hp, hmin⟩ := colMin_spec hex
  simp only [Bool.and_eq_true, decide_eq_true_eq] at hp hmin
  have hval (c : ℕ) (hc : c < E) (hfree : s.free c = true) : s.x c = score logits c := h.x c hc ((h.free c hc).mp hfree)
  refine ⟨_, he, rfl, hp.2, ?_, rfl, fun c hc hfree hne => ?_⟩
  · exact hp.1.symm.trans (hval _ he hp.2)
  · rw [Ahead, ← hval c hc hfree, ← hval _ he hp.2, hp.1]
    obtain hlt | heq := (le_colMax (x := s.x) hc).lt_or_eq
    · exact .inl hlt
    · exact .inr ⟨heq, lt_of_le_of_ne (hmin c hc ⟨heq, hfree⟩) hne.symm⟩

lemma Picked.step (h : Picked A E logits k s) (hk : k < E) :
    Picked A E logits (k + 1) (pick A E (colMax E (score logits)) s k) := by
  obtain ⟨e, he, hids, hfree, hmax, hmin, hahead⟩ := h.next hk
  have hself : (pick A E (colMax E (score logits)) s k).ids k = e := by rw [hids, Function.update_self]
  have hold {i : ℕ} (hi : i < k) : (pick A E (colMax E (score logits)) s k).ids i = s.ids i := by
    rw [hids, Function.update_of_ne hi.ne]
  have hnew {i : ℕ} (hi : i < k) : s.ids i ≠ e := (h.free e he).mp hfree i hi
  have hcases {i : ℕ} (hi : i < k + 1) : i < k ∨ i = k := by omega
  constructor
  case ids_lt =>
    intro i hi
    obtain hi | rfl := hcases hi
    · rw [hold hi]
      exact h.ids_lt i hi
    · rwa [hself]
  case rest =>
    intro i hi
    rw [hids, Function.update_of_ne (by omega)]
    exact h.rest i (by omega)
  case distinct =>
    intro i hi j hj
    obtain hi | rfl := hcases hi
    · rw [hold hi, hold (hj.trans hi)]
      exact h.distinct i hi j hj
    · rw [hself, hold hj]
      exact (hnew hj).symm
  case best =>
    intro i hi c hc hne
    obtain hi | rfl := hcases hi
    · rw [hold hi]
      refine h.best i hi c hc fun j hj => ?_
      have := hne j hj
      rwa [hold (hj.trans_lt hi)] at this
    · rw [hself]
      refine hahead c hc ((h.free c hc).mpr fun j hj => ?_) ?_
      · have := hne j hj.le
        rw [hold hj] at this
        exact this.symm
      · have := hne i le_rfl
        rwa [hself] at this
  case x =>
    intro c hc hne
    have hce : c ≠ e := fun h' => hne k k.lt_succ_self (hself.trans h'.symm)
    have hxc : (pick A E (colMax E (score logits)) s k).x c = s.x c := by
      dsimp only [pick]
      rw [← hmin, if_neg hce]
    rw [hxc]
    refine h.x c hc fun i hi => ?_
    have := hne i (hi.trans k.lt_succ_self)
    rwa [hold hi] at this
  case taken =>
    intro i hi
    dsimp only [pick]
    rw [← hmin]
    split_ifs with hie
    · rfl
    · obtain hi | rfl := hcases hi
      · have : s.ids i = Function.update s.ids k e i := (Function.update_of_ne hi.ne _ _).symm
        rw [← this]
        exact h.taken i hi
      · exact absurd (Function.update_self _ _ _) hie
  case free =>
    intro c hc
    dsimp only [pick]
    rw [← hmin, Bool.and_eq_true, decide_eq_true_eq, h.free c hc]
    constructor
    · rintro ⟨hc', hce⟩ i hi
      obtain hi | rfl := hcases hi
      · rw [Function.update_of_ne hi.ne]
        exact hc' i hi
      · rw [Function.update_self]
        exact hce.symm
    · intro hc'
      refine ⟨fun i hi => ?_, fun hce => hc' k k.lt_succ_self ?_⟩
      · have := hc' i (hi.trans k.lt_succ_self)
        rwa [Function.update_of_ne hi.ne] at this
      · rw [Function.update_self, hce]
  case num =>
    intro i hi
    obtain hi | rfl := hcases hi
    · rw [hold hi]
      dsimp only [pick]
      rw [Function.update_of_ne hi.ne]
      exact h.num i hi
    · rw [hself]
      dsimp only [pick]
      rw [Function.update_self, hmax]
  case den =>
    have hnum : ∀ i ∈ List.range k, (pick A E (colMax E (score logits)) s k).num i = s.num i := fun i hi => by
      dsimp only [pick]
      rw [Function.update_of_ne (List.mem_range.mp hi).ne]
    have hfold : (List.range k).foldl (fun d i => A.add d ((pick A E (colMax E (score logits)) s k).num i)) A.zero =
        (List.range k).foldl (fun d i => A.add d (s.num i)) A.zero :=
      List.foldl_ext _ _ _ fun d i hi => by rw [hnum i hi]
    rw [List.range_succ, List.foldl_append, hfold, ← h.den]
    dsimp only [pick, List.foldl_cons, List.foldl_nil]
    rw [Function.update_self]

/-! ## Rows -/

variable (A) in
lemma picked_all (logits : ℕ → Option α) (hK : K ≤ E) :
    Picked A E logits K ((List.range K).foldl (pick A E (colMax E (score logits))) (picks0 A E logits)) :=
  foldl_range_inv picked_zero fun _ _ hi h => h.step (hi.trans_le hK)

lemma Picked.map_ids (h : Picked A E logits K s) : (List.range K).map s.ids = topK E K logits := by
  have heq : (List.range K).map s.ids = largest (score logits) E ((List.range K).map s.ids).length := by
    refine eq_largest ?_ (fun e he => ?_) fun e he c hc hout => ?_
    · refine List.pairwise_map.mpr (List.pairwise_lt_range.imp_of_mem fun {i j} hi hj hij => ?_)
      rw [List.mem_range] at hi hj
      exact h.best i hi (s.ids j) (h.ids_lt j hj) fun j' hj' => h.distinct j hj j' (hj'.trans_lt hij)
    · obtain ⟨i, hi, rfl⟩ := List.mem_map.mp he
      exact h.ids_lt i (List.mem_range.mp hi)
    · obtain ⟨i, hi, rfl⟩ := List.mem_map.mp he
      rw [List.mem_range] at hi
      refine h.best i hi c hc fun j hj e => hout (List.mem_map.mpr ⟨j, ?_, e.symm⟩)
      exact List.mem_range.mpr (hj.trans_lt hi)
  rwa [List.length_map, List.length_range] at heq

variable (A)

/-- The experts of a row. -/
theorem gateRow_ids (logits : ℕ → Option α) (hK : K ≤ E) :
    (List.range K).map (gateRow A E K logits).ids = topK E K logits := (picked_all A logits hK).map_ids

/-- Slot `K` is the shared expert. -/
lemma gateRow_shared (logits : ℕ → Option α) (hK : K ≤ E) : (gateRow A E K logits).ids K = E :=
  (picked_all A logits hK).rest K le_rfl

lemma gateRow_ids_lt (logits : ℕ → Option α) (hK : K ≤ E) (hk : k < K) : (gateRow A E K logits).ids k < E :=
  (picked_all A logits hK).ids_lt k hk

lemma gateRow_ids_inj (logits : ℕ → Option α) (hK : K ≤ E) {i j : ℕ} (hi : i ≤ K) (hj : j ≤ K)
    (h : (gateRow A E K logits).ids i = (gateRow A E K logits).ids j) : i = j := by
  have hall := picked_all A logits hK
  have hne {i j : ℕ} (hij : i < j) (hj : j ≤ K) : (gateRow A E K logits).ids j ≠ (gateRow A E K logits).ids i := by
    obtain hj | rfl := hj.lt_or_eq
    · exact hall.distinct j hj i hij
    · rw [gateRow_shared A logits hK]
      exact (gateRow_ids_lt A logits hK hij).ne'
  obtain hlt | heq | hgt := lt_trichotomy i j
  · exact absurd h.symm (hne hlt hj)
  · exact heq
  · exact absurd h (hne hgt hi)

/-- The weights of a row. -/
theorem gateRow_w (logits : ℕ → Option α) (hK : K ≤ E) {kk : ℕ} (hkk : kk ≤ K) :
    (gateRow A E K logits).w kk = routeWeight A E K logits kk := by
  have hall := picked_all A logits hK
  have hids := hall.map_ids
  dsimp only [gateRow, routeWeight]
  rw [← hids, List.map_map, List.foldl_map, hall.den]
  generalize (List.range K).foldl (pick A E (colMax E (score logits))) (picks0 A E logits) = s at hall
  have hden : (List.range K).foldl (fun d i => A.add d (s.num i)) A.zero = (List.range K).foldl (fun d i =>
      A.add d (((fun e => A.exp (score logits e) (colMax E (score logits))) ∘ s.ids) i)) A.zero :=
    List.foldl_ext _ _ _ fun d i hi => by rw [hall.num i (List.mem_range.mp hi), Function.comp_apply]
  rw [hden]
  split_ifs with h
  · rfl
  all_goals
    have hlt : kk < K := lt_of_le_of_ne hkk h
    rw [hall.num kk hlt, List.getD_eq_getElem?_getD, List.getElem?_map, List.getElem?_range hlt]
    rfl

/-- The bitmap of a row is the set of its experts. -/
theorem gateRow_map (logits : ℕ → Option α) (hK : K ≤ E) (h16 : K < 16) (x : ℕ) :
    (gateRow A E K logits).map (x / 32) / 2 ^ (x % 32) % 2 =
      if ∃ k ≤ K, (gateRow A E K logits).ids k = x then 1 else 0 := by
  have hinj := fun i j => gateRow_ids_inj A logits hK (i := i) (j := j)
  change u32 ((List.range 16).map fun kk => if (gateRow A E K logits).ids kk / 32 = x / 32 ∧ kk ≤ K then
    2 ^ ((gateRow A E K logits).ids kk % 32) else 0).sum / 2 ^ (x % 32) % 2 = _
  generalize (gateRow A E K logits).ids = ids at hinj
  -- the bits of a word are those of distinct experts
  have hsum : ((List.range 16).map fun kk => if ids kk / 32 = x / 32 ∧ kk ≤ K then 2 ^ (ids kk % 32) else 0).sum =
      ∑ i ∈ ((Finset.range 16).filter fun kk => ids kk / 32 = x / 32 ∧ kk ≤ K).image (ids · % 32), 2 ^ i := by
    rw [sum_map_range, ← Finset.sum_filter, Finset.sum_image]
    intro i hi j hj e
    obtain ⟨-, hwi, hi⟩ := Finset.mem_filter.mp (Finset.mem_coe.mp hi)
    obtain ⟨-, hwj, hj⟩ := Finset.mem_filter.mp (Finset.mem_coe.mp hj)
    have hmod : ids i % 32 = ids j % 32 := e
    exact hinj i j hi hj (by omega)
  have hbit : (((List.range 16).map fun kk => if ids kk / 32 = x / 32 ∧ kk ≤ K then 2 ^ (ids kk % 32) else 0).sum).testBit
      (x % 32) ↔ ∃ k ≤ K, ids k = x := by
    rw [hsum, ← Nat.mem_bitIndices, ← List.mem_toFinset, Finset.toFinset_bitIndices_sum_two_pow, Finset.mem_image]
    constructor
    · rintro ⟨k, hk, hmod⟩
      obtain ⟨-, hdiv, hk⟩ := Finset.mem_filter.mp hk
      have := Nat.div_add_mod (ids k) 32
      have := Nat.div_add_mod x 32
      exact ⟨k, hk, by omega⟩
    · rintro ⟨k, hk, rfl⟩
      exact ⟨k, Finset.mem_filter.mpr ⟨Finset.mem_range.mpr (hk.trans_lt h16), rfl, hk⟩, rfl⟩
  have hlow := Nat.testBit_mod_two_pow
    ((List.range 16).map fun kk => if ids kk / 32 = x / 32 ∧ kk ≤ K then 2 ^ (ids kk % 32) else 0).sum 32 (x % 32)
  rw [decide_eq_true (Nat.mod_lt x (by decide)), Bool.true_and, Nat.testBit_eq_decide_div_mod_eq] at hlow
  rw [u32]
  split_ifs with h
  · exact of_decide_eq_true (hlow.trans (hbit.mpr h))
  · have hne := of_decide_eq_false (hlow.trans (Bool.eq_false_iff.mpr fun hb => h (hbit.mp hb)))
    omega

end Gate
end SuffixHybrid.MoeRoute
