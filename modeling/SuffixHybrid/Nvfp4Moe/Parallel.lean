import SuffixHybrid.Nvfp4Moe.Serial

/-!
# The parallel router

The stores of `route_par`: counts over words of two identifiers, prefix sums by shuffles and warp totals. They are
those of `route_cta` (`routers_agree`).
-/

open Finset

namespace SuffixHybrid.Nvfp4Moe
open Lib

namespace Args
variable {A : Args} {m m₁ : Mem} {l l₁ l₂ l₃ : List Write} {w : Write}

/-! ## Identifiers -/

/-- The identifiers are in shared memory. -/
def HasIds (A : Args) (m : Mem) : Prop := ∀ p < A.np8, m (.ids, p) = A.code p

/-- The words come in groups of four. -/
def groups (A : Args) : ℕ := (A.pairs + 7) / 8

lemma code_range (p : ℕ) : 0 ≤ A.code p ∧ A.code p < 2 ^ 16 :=
  ⟨Int.emod_nonneg _ (by decide), Int.emod_lt_of_pos _ (by decide)⟩

lemma code_eq (hE : A.numExperts ≤ RT) (p : ℕ) : A.code p =
    if p < A.pairs ∧ 0 ≤ A.localId p ∧ A.localId p < A.numExperts then A.localId p else 0xFFFF := by
  unfold RT at hE
  unfold code
  by_cases hp : p < A.pairs
  · simp only [hp, true_and, if_true]
    split_ifs with hloc
    · exact Int.emod_eq_of_lt hloc.1 (by omega)
    · rfl
  · simp only [hp, false_and, if_false]
    rfl

/-- An identifier is that of an expert if the pair has it. -/
lemma code_eq_iff (hE : A.numExperts ≤ RT) {e p : ℕ} (he : e < A.numExperts) :
    (A.code p).toNat = e ↔ p < A.pairs ∧ A.localId p = e := by
  rw [code_eq hE]
  unfold RT at hE
  split_ifs with hloc
  · omega
  · omega

/-- A half of a word. -/
lemma half_word (h : A.HasIds m) {k : ℕ} {half : ℕ} (hhalf : half < 2) (hk : 2 * k + 1 < A.np8) :
    (word m k >>> (16 * half)) &&& 0xFFFF = (A.code (2 * k + half)).toNat := by
  have h0 := @code_range A (2 * k)
  have h1 := @code_range A (2 * k + 1)
  have hmask : ∀ x : ℕ, x &&& 0xFFFF = x % 2 ^ 16 := fun x => Nat.and_two_pow_sub_one_eq_mod x 16
  rw [hmask, Nat.shiftRight_eq_div_pow, word, h _ hk, h _ (by omega)]
  obtain rfl | rfl : half = 0 ∨ half = 1 := by omega
  · simp only [Nat.mul_zero, Nat.pow_zero, Nat.div_one, Nat.add_zero]
    omega
  · simp only [Nat.mul_one]
    omega

lemma high_word (h : A.HasIds m) {k : ℕ} (hk : 2 * k + 1 < A.np8) :
    word m k >>> 16 = (A.code (2 * k + 1)).toNat := by
  have h0 := @code_range A (2 * k)
  rw [Nat.shiftRight_eq_div_pow, word, h _ hk, h _ (by omega)]
  omega

lemma steps_groups : steps 0 A.nw 4 = (List.range A.groups).map (4 * ·) := by
  have hcount : cdiv (A.nw - 0) 4 = A.groups := by
    unfold cdiv nw np8 groups
    omega
  rw [steps, hcount]
  exact List.map_congr_left fun k _ => by omega

/-- Blocks of equal size are a range. -/
lemma range_blocks {α : Type} (f : ℕ → α) (n blocks : ℕ) :
    ((List.range blocks).flatMap fun b => (List.range n).map fun j => f (n * b + j)) = (List.range (n * blocks)).map f := by
  induction blocks with
  | zero => rfl
  | succ blocks ih =>
    rw [List.range_succ, List.flatMap_append, ih, Nat.mul_succ, List.range_add, List.map_append, List.flatMap_singleton,
      List.map_map]
    rfl

/-- The walk visits the pairs in order. -/
lemma parPairs_eq (h : A.HasIds m) (tid : ℕ) :
    A.parPairs m tid = (List.range A.np8).map fun p => (p, (A.code p).toNat == tid) := by
  have hnp : A.np8 = 8 * A.groups := Nat.mul_comm _ _
  rw [hnp, ← range_blocks, parPairs, steps_groups, List.flatMap_map]
  refine List.flatMap_congr fun b hb => List.map_congr_left fun j hj => ?_
  have hb := List.mem_range.mp hb
  have hj := List.mem_range.mp hj
  rw [half_word h (Nat.mod_lt j (by decide)) (by omega)]
  rw [show 2 * (4 * b + j / 2) + j % 2 = 8 * b + j by omega, show 2 * (4 * b) + j = 8 * b + j by omega]

lemma pairs_le_np8 : A.pairs ≤ A.np8 := by
  unfold np8
  omega

lemma parPairs_filter (hE : A.numExperts ≤ RT) (h : A.HasIds m) {tid : ℕ} (htid : tid < A.numExperts) :
    ((A.parPairs m tid).filter (·.2)).map (·.1) = A.pairsOf tid := by
  rw [parPairs_eq h, List.filter_map, List.map_map]
  refine (List.map_id _).trans ?_
  obtain ⟨d, hd⟩ := Nat.exists_eq_add_of_le (@pairs_le_np8 A)
  rw [hd, List.range_add, List.filter_append]
  have hpad : ((List.range d).map (A.pairs + ·)).filter ((fun q : ℕ × Bool => q.2) ∘ fun p => (p, (A.code p).toNat == tid)) =
      [] := by
    rw [List.filter_eq_nil_iff]
    intro p hp hhit
    obtain ⟨i, -, rfl⟩ := List.mem_map.mp hp
    have := ((code_eq_iff hE htid).mp (beq_iff_eq.mp hhit)).1
    omega
  rw [hpad, List.append_nil]
  refine List.filter_congr fun p hp => ?_
  have hp := List.mem_range.mp hp
  refine Bool.eq_iff_iff.mpr ?_
  rw [Function.comp_apply, beq_iff_eq, code_eq_iff hE htid, has, decide_eq_true_eq, and_iff_right hp]

/-! ## Counts -/

lemma sum_toNat {α : Type} (l : List α) (hit : α → Bool) : (l.map fun a => (hit a).toNat).sum = l.countP hit := by
  induction l with
  | nil => rfl
  | cons a l ih =>
    rw [List.map_cons, List.sum_cons, ih, List.countP_cons, Nat.add_comm]
    cases hit a <;> rfl

/-- The counts of the threads; there are more threads than experts. -/
def threadCount (A : Args) (tid : ℕ) : ℕ := if tid < A.numExperts then A.count tid else 0

/-- The flags of the threads. -/
def threadAct (A : Args) (tid : ℕ) : ℕ := if 0 < A.threadCount tid then 1 else 0

lemma parCnt_eq (hE : A.numExperts ≤ RT) (h : A.HasIds m) (tid : ℕ) : A.parCnt m tid = A.threadCount tid := by
  unfold parCnt threadCount
  split_ifs with htid
  · have hhit : ∀ p, (A.code p).toNat == tid → p < A.pairs ∧ A.localId p = tid := fun p hp =>
      (code_eq_iff hE htid).mp (beq_iff_eq.mp hp)
    have hcount : A.count tid = ∑ p ∈ range A.np8, ((A.code p).toNat == tid).toNat := by
      rw [← sum_map_range, sum_toNat, ← length_pairsOf, ← parPairs_filter hE h htid, List.length_map,
        ← List.countP_eq_length_filter, parPairs_eq h, List.countP_map]
      rfl
    have hnp : A.np8 = 8 * A.groups := Nat.mul_comm _ _
    rw [hcount, hnp, ← sum_blocks, steps_groups, List.map_map, sum_map_range]
    refine sum_congr rfl fun b hb => ?_
    have hb := mem_range.mp hb
    have hlow : ∀ j < 4, word m (4 * b + j) &&& 0xFFFF = (A.code (8 * b + 2 * j)).toNat := fun j hj => by
      have := @half_word A m h (4 * b + j) 0 (by decide) (by omega)
      rwa [Nat.mul_zero, Nat.shiftRight_zero, show 2 * (4 * b + j) + 0 = 8 * b + 2 * j by omega] at this
    have hhigh : ∀ j < 4, word m (4 * b + j) >>> 16 = (A.code (8 * b + 2 * j + 1)).toNat := fun j hj => by
      rw [high_word h (by omega), show 2 * (4 * b + j) + 1 = 8 * b + 2 * j + 1 by omega]
    rw [Function.comp_apply, sum_map_range]
    simp only [sum_range_succ, range_zero, sum_empty]
    rw [hlow 0 (by decide), hlow 1 (by decide), hlow 2 (by decide), hlow 3 (by decide), hhigh 0 (by decide),
      hhigh 1 (by decide), hhigh 2 (by decide), hhigh 3 (by decide)]
    simp only [Nat.zero_add, Nat.mul_zero, Nat.add_zero, Nat.mul_one, ← Nat.add_assoc]
  · rfl

/-! ## Prefix sums -/

lemma warpScan_eq (v : ℕ → ℕ) (tid : ℕ) :
    warpScan v tid = ∑ i ∈ range (tid % 32 + 1), v (32 * (tid / 32) + i) :=
  scan_full _ (Nat.mod_lt tid (by decide))

/-- The totals of the warps are in shared memory, from a word on. -/
def HasTotals (m : Mem) (base : ℕ) (v : ℕ → ℕ) : Prop := ∀ w < 8, m (.sh, base + w) = (∑ i ∈ range 32, v (32 * w + i) : ℕ)

variable {v : ℕ → ℕ} {base tid : ℕ}

lemma before_eq (h : HasTotals m base v) (htid : tid < RT) : before m base tid = ∑ i ∈ range (32 * (tid / 32)), v i := by
  unfold RT at htid
  rw [before, sum_map_range, ← sum_filter, ← sum_blocks]
  have hfilter : (range (RT / 32)).filter (· < tid / 32) = range (tid / 32) := by
    ext w
    simp only [mem_filter, mem_range, RT]
    omega
  rw [hfilter]
  refine sum_congr rfl fun w hw => ?_
  have hw := mem_range.mp hw
  rw [h w (by omega), Int.toNat_natCast]

/-- The sums of the threads before. -/
lemma prefix_eq (h : HasTotals m base v) (htid : tid < RT) :
    before m base tid + warpScan v tid - v tid = ∑ i ∈ range tid, v i := by
  have hsplit : 32 * (tid / 32) + tid % 32 = tid := Nat.div_add_mod tid 32
  have hsum : ∑ i ∈ range tid, v i = ∑ i ∈ range (32 * (tid / 32)), v i +
      ∑ i ∈ range (tid % 32), v (32 * (tid / 32) + i) := by rw [← sum_range_add, hsplit]
  rw [before_eq h htid, warpScan_eq, sum_range_succ, hsplit, hsum, ← Nat.add_assoc, Nat.add_sub_cancel]

/-- The sum of all threads. -/
lemma totals_sum (h : HasTotals m base v) :
    ((List.range (RT / 32)).map fun w => (m (.sh, base + w)).toNat).sum = ∑ i ∈ range RT, v i := by
  rw [sum_map_range, show RT = 32 * (RT / 32) from rfl, ← sum_blocks]
  refine sum_congr rfl fun w hw => ?_
  have hw : w < 8 := mem_range.mp hw
  rw [h w hw, Int.toNat_natCast]

lemma sum_threadCount {e : ℕ} (he : e ≤ A.numExperts) : ∑ i ∈ range e, A.threadCount i = A.off e :=
  sum_congr rfl fun _ hi => if_pos ((mem_range.mp hi).trans_le he)

lemma threadAct_eq (e : ℕ) : A.threadAct e = if e < A.numExperts then if 0 < A.count e then 1 else 0 else 0 := by
  unfold threadAct threadCount
  split_ifs <;> omega

lemma sum_threadAct {e : ℕ} (he : e ≤ A.numExperts) : ∑ i ∈ range e, A.threadAct i = A.rank e :=
  sum_congr rfl fun i hi => (threadAct_eq i).trans (if_pos ((mem_range.mp hi).trans_le he))

lemma sum_allAct (hE : A.numExperts ≤ RT) : ∑ i ∈ range RT, A.threadAct i = A.active := by
  rw [active, ← sum_threadAct le_rfl]
  refine (sum_subset (range_subset_range.mpr hE) fun i _ hi => ?_).symm
  rw [threadAct_eq, if_neg fun h => hi (mem_range.mpr h)]

/-! ## Runs -/

/-- The buffers of `route_par`: the workspace, the totals and the identifiers. -/
def parSize (A : Args) : Buf → ℕ
  | .sh => 16
  | .ids => A.np8
  | b => A.workspace b

lemma mem_parIds (h : Phase A.parIds l₁) : w ∈ l₁ ↔ ∃ p < A.np8, w = ((.ids, p), A.code p) := by
  rw [Phase.mem h]
  simp only [parIds, List.mem_map, mem_steps_iff (show 0 < RT by decide)]
  constructor
  · rintro ⟨tid, -, p, ⟨-, -, hp⟩, rfl⟩
    exact ⟨p, hp, rfl⟩
  · rintro ⟨p, hp, rfl⟩
    exact ⟨p % RT, Nat.mod_lt p (by decide), p, ⟨p / RT, by rw [Nat.mul_comm, Nat.mod_add_div], hp⟩, rfl⟩

lemma mem_parTotals (h : Phase (A.parTotals m) l₂) :
    w ∈ l₂ ↔ ∃ q < 8, w = ((.sh, q), (warpScan (A.parCnt m) (32 * q + 31) : ℤ)) ∨
      w = ((.sh, 8 + q), (warpScan (A.parAct m) (32 * q + 31) : ℤ)) := by
  rw [Phase.mem h]
  constructor
  · rintro ⟨tid, htid, hw⟩
    unfold RT at htid
    unfold parTotals at hw
    split_ifs at hw with hlane
    · have heq : 32 * (tid / 32) + 31 = tid := by omega
      refine ⟨tid / 32, by omega, ?_⟩
      rw [heq]
      simpa only [List.mem_cons, List.not_mem_nil, or_false] using hw
    · cases hw
  · rintro ⟨q, hq, hw⟩
    refine ⟨32 * q + 31, by unfold RT; omega, ?_⟩
    rw [parTotals, if_pos (by omega), show (32 * q + 31) / 32 = q by omega]
    simpa only [List.mem_cons, List.not_mem_nil, or_false] using hw

lemma mem_parOut (hE : A.numExperts ≤ RT) (hactive : A.active ≤ A.maxSlots) (hcnt : A.parCnt m₁ = A.threadCount)
    (hact : A.parAct m₁ = A.threadAct) (hids : A.HasIds m) (hcounts : HasTotals m 0 A.threadCount)
    (hacts : HasTotals m 8 A.threadAct) (htid : tid < RT) :
    w ∈ A.parOut m₁ m tid ↔ (tid < A.numExperts ∧ 0 < A.count tid ∧ w ∈ A.slotWrites tid) ∨
      (A.active ≤ tid ∧ tid < A.maxSlots ∧ w ∈ emptyWrites tid) ∨
      (tid < A.numExperts ∧ ∃ i p : ℕ, (A.pairsOf tid)[i]? = some p ∧ w = ((.pairList, A.off tid + i), (p : ℤ))) := by
  have hna := (totals_sum hacts).trans (sum_allAct hE)
  have hoff := prefix_eq hcounts htid
  have hslot := prefix_eq hacts htid
  simp only [parOut, hcnt, hact, hna, hoff, hslot, List.mem_append, or_assoc, List.mem_ite_nil_right]
  have hempty : (tid < A.maxSlots ∧ A.active ≤ tid) ∧ w ∈ [((Buf.slotExpert, tid), (-1 : ℤ)), ((.slotCnt, tid), 0)] ↔
      A.active ≤ tid ∧ tid < A.maxSlots ∧ w ∈ emptyWrites tid :=
    ⟨fun h => ⟨h.1.2, h.1.1, h.2⟩, fun h => ⟨⟨h.2.1, h.1⟩, h.2.2⟩⟩
  rw [hempty]
  by_cases he : tid < A.numExperts
  · have hown : A.threadCount tid = A.count tid := if_pos he
    rw [sum_threadCount he.le, sum_threadAct he.le, hown, mem_walk_pairs (parPairs_filter hE hids he)]
    refine or_congr ⟨fun h => ⟨he, h.1.2.1, h.2⟩, fun h => ⟨⟨he, h.2.1, ?_⟩, h.2.2⟩⟩
      (or_congr Iff.rfl ⟨fun h => ⟨he, h.2⟩, fun h => ⟨⟨he, ?_⟩, h.2⟩⟩)
    · exact (rank_lt h.2.1 he).trans_le hactive
    · obtain ⟨i, p, hp, -⟩ := h.2
      exact Nat.zero_lt_of_lt (lt_count hp)
  · simp only [he, false_and, false_or, or_false]

/-- `route_par` writes the right stores to the workspace, and stays inside of its buffers. -/
theorem writes_par (hE : A.numExperts ≤ RT) (hslots : A.maxSlots = min A.numExperts A.pairs) (h : A.RoutePar m l) :
    A.Writes l ∧ Inside A.parSize l := by
  obtain ⟨l₁, l₂, l₃, h₁, h₂, h₃, rfl⟩ := h
  have hactive : A.active ≤ A.maxSlots := by
    have h1 : A.active ≤ A.numExperts := rank_le
    have h2 : A.active ≤ A.pairs := rank_le_off.trans off_le_pairs
    omega
  have hids₁ : A.HasIds (storeAll m l₁) := fun p hp => by
    refine storeAll_of_agree m (fun w hw hwp => ?_) (.inr ⟨_, (mem_parIds h₁).mpr ⟨p, hp, rfl⟩, rfl⟩)
    obtain ⟨p', -, rfl⟩ := (mem_parIds h₁).mp hw
    obtain rfl := congrArg Prod.snd hwp
    rfl
  have hids₂ : A.HasIds (storeAll m (l₁ ++ l₂)) := fun p hp => by
    refine storeAll_of_agree m (fun w hw hwp => ?_)
      (.inr ⟨_, List.mem_append_left _ ((mem_parIds h₁).mpr ⟨p, hp, rfl⟩), rfl⟩)
    obtain hw | hw := List.mem_append.mp hw
    · obtain ⟨p', -, rfl⟩ := (mem_parIds h₁).mp hw
      obtain rfl := congrArg Prod.snd hwp
      rfl
    · obtain ⟨q, -, rfl | rfl⟩ := (mem_parTotals h₂).mp hw <;> cases hwp
  have hcnt : A.parCnt (storeAll m l₁) = A.threadCount := funext (parCnt_eq hE hids₁)
  have hact : A.parAct (storeAll m l₁) = A.threadAct := funext fun tid => by
    rw [parAct, hcnt, threadAct]
  -- the totals of the warps
  have htotal : ∀ (v : ℕ → ℕ) q, warpScan v (32 * q + 31) = ∑ i ∈ range 32, v (32 * q + i) := fun v q => by
    rw [warpScan_eq, show (32 * q + 31) % 32 + 1 = 32 by omega, show (32 * q + 31) / 32 = q by omega]
  have hplace : ∀ w ∈ l₁ ++ l₂, w.1.1 = .sh → w ∈ l₂ := fun w hw hsh => by
    obtain hw | hw := List.mem_append.mp hw
    · obtain ⟨p, -, rfl⟩ := (mem_parIds h₁).mp hw
      cases hsh
    · exact hw
  have hcounts : HasTotals (storeAll m (l₁ ++ l₂)) 0 A.threadCount := fun q hq => by
    rw [Nat.zero_add, ← htotal, ← hcnt]
    refine storeAll_of_agree m (fun w hw hwq => ?_)
      (.inr ⟨_, List.mem_append_right _ ((mem_parTotals h₂).mpr ⟨q, hq, .inl rfl⟩), rfl⟩)
    obtain ⟨q', hq', rfl | rfl⟩ := (mem_parTotals h₂).mp (hplace w hw (congrArg Prod.fst hwq))
    · obtain rfl : q' = q := congrArg Prod.snd hwq
      rfl
    · have : 8 + q' = q := congrArg Prod.snd hwq
      omega
  have hacts : HasTotals (storeAll m (l₁ ++ l₂)) 8 A.threadAct := fun q hq => by
    rw [← htotal, ← hact]
    refine storeAll_of_agree m (fun w hw hwq => ?_)
      (.inr ⟨_, List.mem_append_right _ ((mem_parTotals h₂).mpr ⟨q, hq, .inr rfl⟩), rfl⟩)
    obtain ⟨q', hq', rfl | rfl⟩ := (mem_parTotals h₂).mp (hplace w hw (congrArg Prod.fst hwq))
    · have : q' = 8 + q := congrArg Prod.snd hwq
      omega
    · obtain rfl : q' = q := Nat.add_left_cancel (congrArg Prod.snd hwq)
      rfl
  have hmem₃ : ∀ w, w ∈ l₃ ↔ A.Out w := fun w => by
    have hthread := fun tid htid => @mem_parOut A _ _ w tid hE hactive hcnt hact hids₂ hcounts hacts htid
    rw [Phase.mem h₃]
    constructor
    · rintro ⟨tid, htid, hw⟩
      obtain ⟨he, hc, hw⟩ | ⟨hs, hlt, hw⟩ | ⟨he, hw⟩ := (hthread tid htid).mp hw
      · exact .inl ⟨tid, he, hc, hw⟩
      · exact .inr (.inl ⟨tid, hs, hlt, hw⟩)
      · exact .inr (.inr ⟨tid, he, hw⟩)
    · rintro (⟨e, he, hc, hw⟩ | ⟨s, hs, hlt, hw⟩ | ⟨e, he, hw⟩)
      · exact ⟨e, he.trans_le hE, (hthread e (he.trans_le hE)).mpr (.inl ⟨he, hc, hw⟩)⟩
      · have hsE : s < RT := by omega
        exact ⟨s, hsE, (hthread s hsE).mpr (.inr (.inl ⟨hs, hlt, hw⟩))⟩
      · exact ⟨e, he.trans_le hE, (hthread e (he.trans_le hE)).mpr (.inr (.inr ⟨he, hw⟩))⟩
  refine ⟨fun w hsh hids => ?_, fun w hw => ?_⟩
  · rw [List.mem_append, hmem₃]
    refine or_iff_right fun hw => ?_
    obtain hw | hw := List.mem_append.mp hw
    · obtain ⟨p, -, rfl⟩ := (mem_parIds h₁).mp hw
      exact hids rfl
    · obtain ⟨q, -, rfl | rfl⟩ := (mem_parTotals h₂).mp hw <;> exact hsh rfl
  · obtain hw | hw := List.mem_append.mp hw
    · obtain hw | hw := List.mem_append.mp hw
      · obtain ⟨p, hp, rfl⟩ := (mem_parIds h₁).mp hw
        exact hp
      · obtain ⟨q, hq, rfl | rfl⟩ := (mem_parTotals h₂).mp hw
        · change q < 16
          omega
        · change 8 + q < 16
          omega
    · have hout := (hmem₃ w).mp hw
      have hlt := hout.inside (by omega)
      obtain ⟨⟨b, s⟩, v⟩ := w
      cases b with
      | sh => exact absurd hout (not_out (.inl rfl))
      | ids => exact absurd hout (not_out (.inr rfl))
      | _ => exact hlt

/-! ## Agreement -/

/-- The outputs of two routers, where they are defined. -/
structure SameSlots (A : Args) (m m' : Mem) : Prop where
  slotExpert : ∀ s < A.maxSlots, m (.slotExpert, s) = m' (.slotExpert, s)
  slotCnt : ∀ s < A.maxSlots, m (.slotCnt, s) = m' (.slotCnt, s)
  slotOff : ∀ s < A.maxSlots, 0 < m (.slotCnt, s) → m (.slotOff, s) = m' (.slotOff, s)
  pairList : ∀ i < A.off A.numExperts, m (.pairList, i) = m' (.pairList, i)

/-- Places with a right store agree. -/
lemma Writes.same {m m' : Mem} {l l' : List Write} (h : A.Writes l) (h' : A.Writes l') {a : Addr} {v : ℤ} (hv : A.Out (a, v)) :
    storeAll m l a = storeAll m' l' a := (h.value hv).trans (h'.value hv).symm

/-- The place of a local pair. -/
lemma exists_of_lt_off {e i : ℕ} (h : i < A.off e) : ∃ e' < e, ∃ j < A.count e', A.off e' + j = i := by
  induction e with
  | zero => exact absurd h (Nat.not_lt_zero i)
  | succ e ih =>
    obtain hlt | hle := Nat.lt_or_ge i (A.off e)
    · obtain ⟨e', he', hj⟩ := ih hlt
      exact ⟨e', he'.trans (Nat.lt_succ_self e), hj⟩
    · rw [off_succ] at h
      exact ⟨e, Nat.lt_succ_self e, i - A.off e, by omega, by omega⟩

/-- The routers agree, list every local pair once, and stay inside of their buffers, whatever the buffers hold before
and in whatever order the stores of a phase land. -/
theorem routers_agree (hE : A.numExperts ≤ 256) (hslots : A.maxSlots = min A.numExperts A.pairs) {mc mp : Mem}
    {lc lp : List Write} (hc : A.RouteCta mc lc) (hp : A.RoutePar mp lp) :
    SameSlots A (storeAll mc lc) (storeAll mp lp) ∧ A.Listed (storeAll mc lc) ∧ A.Listed (storeAll mp lp) ∧
      Inside A.ctaSize lc ∧ Inside A.parSize lp := by
  obtain ⟨hwc, hic⟩ := writes_cta hE hslots hc
  obtain ⟨hwp, hip⟩ := writes_par hE hslots hp
  have hlc : A.Listed (storeAll mc lc) := listed_of_writes hslots hwc
  refine ⟨⟨fun s hs => ?_, fun s hs => ?_, fun s hs hpos => ?_, fun i hi => ?_⟩, hlc, listed_of_writes hslots hwp, hic, hip⟩
  · obtain hlt | hle := Nat.lt_or_ge s A.active
    · obtain ⟨e, he, hcount, hr⟩ := exists_of_lt_rank hlt
      exact hwc.same hwp (out_slotExpert.mpr (.inl ⟨e, he, hcount, hr, rfl⟩))
    · exact hwc.same hwp (out_slotExpert.mpr (.inr ⟨hle, hs, rfl⟩))
  · obtain hlt | hle := Nat.lt_or_ge s A.active
    · obtain ⟨e, he, hcount, hr⟩ := exists_of_lt_rank hlt
      exact hwc.same hwp (out_slotCnt.mpr (.inl ⟨e, he, hcount, hr, rfl⟩))
    · exact hwc.same hwp (out_slotCnt.mpr (.inr ⟨hle, hs, rfl⟩))
  · obtain ⟨e, he, hcount, hr⟩ := exists_of_lt_rank ((hlc.nonempty s hs).mp hpos)
    exact hwc.same hwp (out_slotOff.mpr ⟨e, he, hcount, hr, rfl⟩)
  · obtain ⟨e, he, j, hj, rfl⟩ := exists_of_lt_off hi
    rw [← length_pairsOf] at hj
    exact hwc.same hwp (out_pairList.mpr ⟨e, he, j, _, List.getElem?_eq_getElem hj, rfl, rfl⟩)

/-- Two pairs of the two experts, and one of another rank. -/
theorem routers_agree_three :
    let A : Args := ⟨fun p => 2 - p, false, 1, 3, 2, 2⟩
    ∃ lc lp, A.RouteCta (fun _ => 7) lc ∧ A.RoutePar (fun _ => 9) lp ∧
      SameSlots A (storeAll (fun _ => 7) lc) (storeAll (fun _ => 9) lp) := by
  intro A
  have hc : A.RouteCta (fun _ => 7) _ := ⟨_, _, _, .refl _, .refl _, .refl _, rfl⟩
  have hp : A.RoutePar (fun _ => 9) _ := ⟨_, _, _, .refl _, .refl _, .refl _, rfl⟩
  exact ⟨_, _, hc, hp, (routers_agree (by decide) (by decide) hc hp).1⟩

end Args

end SuffixHybrid.Nvfp4Moe
