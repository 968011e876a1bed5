import SuffixHybrid.Dsa.Candidates
import SuffixHybrid.Lib.Except
import SuffixHybrid.Lib.Rounding
import SuffixHybrid.Lib.Word

/-!
# Warm-start select

`select` bounds the `k`-th largest logit of a row from below by the `k`-th largest of a few positions, packs the
positions above the bound and ranks these. The positions of the bound are distinct (`warmPositions_nodup`), so at
least as many positions of the row are above it as are asked for, and what is left out is below all of them.
-/

namespace SuffixHybrid.Dsa
open Lib

/-- A value of a tensor: `-inf` is the least, and NaN sorts behind all others. -/
abbrev Logit := WithTop (WithBot ℚ)

/-- What torch chooses: which of equal values `topk` prefers, and the order that `randperm` gives. -/
structure Torch where
  topk : (ℕ → Logit) → ℕ → ℕ → List ℕ
  shuffle : List ℕ → List ℕ
  topk_spec : ∀ row n k, k ≤ n → Top k (Finset.range n) row (topk row n k)
  shuffle_spec : ∀ l, (shuffle l).Perm l

/-- There is one that does this. -/
def Torch.sorting : Torch where
  topk := largest
  shuffle := id
  topk_spec row n k _ := top_largest row n k
  shuffle_spec := List.Perm.refl

/-! ## The code, on a row -/

/-- `t.gather(1, i)`, which raises for an index out of bounds. -/
def gather {α : Type} (row : List α) (i : ℤ) : Option α := if 0 ≤ i then row[i.toNat]? else none

/-- `full(.., a)` with a front of it written. -/
def fill {α : Type} (n : ℕ) (a : α) (front : List α) : List α := front ++ List.replicate (n - front.length) a

/-- `even`, in float64. -/
def even (cl extra : ℕ) : List ℤ :=
  (List.range extra).map fun (j : ℕ) =>
    ⌊F64.roundBinary64 (F64.roundBinary64 (((j : ℚ) + 1 / 2) * cl) / (max extra 1 : ℕ))⌋

/-- Every repeat of a position in a sorted row becomes -1. -/
def markRepeats (before : Option ℤ) : List ℤ → List ℤ
  | [] => []
  | p :: l => (if before = some p ∧ 0 ≤ p then -1 else p) :: markRepeats (some p) l

/-- `warm_positions`. -/
def warmPositions (prev : List ℤ) (cl extra : ℕ) : List ℤ :=
  markRepeats none ((prev ++ even cl extra).mergeSort (· ≤ ·))

/-- `warm_logits`. -/
def warmLogits (logits : List (WithBot ℚ)) (cl : ℕ) (pos : List ℤ) : Option (List (WithBot ℚ)) :=
  pos.mapM fun p =>
    (gather logits (min (max p 0) ((logits.length : ℤ) - 1))).map fun got => if 0 ≤ p ∧ p < cl then got else ⊥

/-- The largest finite `|logit|`, or 0. -/
def magnitude (sub : List (WithBot ℚ)) : ℚ := (sub.map fun x => x.recBotCoe 0 fun q => |q|).foldr max 0

/-- `warm_threshold`; `topk` raises for a row of fewer than `k`. -/
def warmThreshold (sub : List (WithBot ℚ)) (k : ℕ) (slack : ℚ) : Option (WithBot ℚ) :=
  (kth sub k).map fun t => t.map fun q => q - slack * magnitude sub

/-- `logits[r, i]`. -/
def logitAt (logits : List (WithBot ℚ)) (i : ℕ) : WithBot ℚ := logits[i]?.getD ⊥

/-- The packed survivors of a row: their logits, their positions and how many. -/
structure Packed where
  compV : List Logit
  compI : List ℤ
  cnt : ℤ

/-- `compact`. -/
def compact (T : Torch) (logits : List (WithBot ℚ)) (cl : ℕ) (thr : WithBot ℚ) : Packed :=
  let n := min cl logits.length
  let pos := T.shuffle ((List.range n).filter fun i => thr ≤ logitAt logits i)
  { compV := fill logits.length ⊤ (pos.map fun i => (logitAt logits i : Logit))
    compI := fill logits.length (-1) (pos.map fun (i : ℕ) => i32 i)
    cnt := i32 pos.length }

/-- `persistent_topk`. -/
def persistentTopk (T : Torch) (row : List Logit) (len : ℤ) (k : ℕ) : List ℤ :=
  let n := (max 0 (min len row.length)).toNat
  let sel := if n ≤ k then List.range n else T.topk (fun i => row[i]?.getD ⊤) n k
  fill k (-1) ((sel.map fun (i : ℕ) => i32 i).take k)

/-- `remap`. -/
def remap (slots compI : List ℤ) (cl : ℕ) : Option (List ℤ) :=
  slots.mapM fun s => (gather compI (max s 0)).map fun (pos : ℤ) => if 0 ≤ s ∧ 0 ≤ pos ∧ pos < cl then pos else -1

/-- `select`. -/
def select (T : Torch) (logits : List (WithBot ℚ)) (cl : ℕ) (prev : List ℤ) (k extra : ℕ) (slack : ℚ) :
    Option (List ℤ × ℤ) := do
  let sub ← warmLogits logits cl (warmPositions prev cl extra)
  let thr ← warmThreshold sub k slack
  let packed := compact T logits cl thr
  let idx ← remap (persistentTopk T packed.compV packed.cnt k) packed.compI cl
  pure (idx, packed.cnt)

/-! ## The positions -/

/-- In a sorted row the positions that are left are behind the one before, and distinct. -/
lemma markRepeats_sorted {l : List ℤ} {before : Option ℤ} (hl : l.Pairwise (· ≤ ·))
    (hb : ∀ b ∈ before, ∀ p ∈ l, b ≤ p) :
    (∀ p ∈ markRepeats before l, 0 ≤ p → ∀ b ∈ before, b < p) ∧
      ((markRepeats before l).filter (0 ≤ ·)).Pairwise (· < ·) := by
  induction l generalizing before with
  | nil => exact ⟨fun p hp => absurd hp List.not_mem_nil, .nil⟩
  | cons q l ih =>
    rw [List.pairwise_cons] at hl
    obtain ⟨hfront, hrest⟩ := @ih (some q) hl.2 fun b hbq p hp => by
      rw [Option.mem_some_iff] at hbq
      exact hbq ▸ hl.1 p hp
    have hlater : ∀ p ∈ markRepeats (some q) l, 0 ≤ p → ∀ b ∈ before, b < p := fun p hp h0 b hbb =>
      (hb b hbb q List.mem_cons_self).trans_lt (hfront p hp h0 q rfl)
    rw [markRepeats]
    by_cases hrep : before = some q ∧ 0 ≤ q
    · rw [if_pos hrep, List.filter_cons_of_neg (by decide)]
      refine ⟨fun p hp h0 => ?_, hrest⟩
      obtain rfl | hp := List.mem_cons.mp hp
      · exact absurd h0 (by decide)
      · exact hlater p hp h0
    · rw [if_neg hrep]
      constructor
      · intro p hp h0 b hbb
        obtain rfl | hp := List.mem_cons.mp hp
        · exact lt_of_le_of_ne (hb b hbb p List.mem_cons_self) fun he => hrep ⟨he ▸ hbb, h0⟩
        · exact hlater p hp h0 b hbb
      · rw [List.filter_cons]
        split
        case isTrue h0 =>
          refine List.pairwise_cons.mpr ⟨fun p hp => ?_, hrest⟩
          obtain ⟨hp, hp0⟩ := List.mem_filter.mp hp
          exact hfront p hp (of_decide_eq_true hp0) q rfl
        case isFalse => exact hrest

/-- The positions of the bound are distinct. -/
lemma warmPositions_nodup (prev : List ℤ) (cl extra : ℕ) : ((warmPositions prev cl extra).filter (0 ≤ ·)).Nodup := by
  have hsorted : ((prev ++ even cl extra).mergeSort (· ≤ ·)).Pairwise (· ≤ ·) := by
    refine (@List.pairwise_mergeSort ℤ (fun a b => decide (a ≤ b)) ?_ ?_ _).imp of_decide_eq_true
    · exact fun a b c hab hbc => decide_eq_true ((of_decide_eq_true hab).trans (of_decide_eq_true hbc))
    · intro a b
      rw [Bool.or_eq_true, decide_eq_true_eq, decide_eq_true_eq]
      exact le_total a b
  exact (markRepeats_sorted hsorted (by simp)).2.imp ne_of_lt

lemma length_markRepeats (before : Option ℤ) (l : List ℤ) : (markRepeats before l).length = l.length := by
  induction l generalizing before with
  | nil => rfl
  | cons p l ih => rw [markRepeats, List.length_cons, ih, List.length_cons]

lemma length_warmPositions (prev : List ℤ) (cl extra : ℕ) :
    (warmPositions prev cl extra).length = prev.length + extra := by
  rw [warmPositions, length_markRepeats, List.length_mergeSort, List.length_append, even, List.length_map,
    List.length_range]

/-! ## The bound -/

section
variable {logits : List (WithBot ℚ)} {cl : ℕ}

/-- The logit that a position of the bound gets. -/
def warmLogit (logits : List (WithBot ℚ)) (cl : ℕ) (p : ℤ) : WithBot ℚ :=
  if 0 ≤ p ∧ p < cl then logitAt logits p.toNat else ⊥

lemma warmLogits_eq (hW : 0 < logits.length) (hcl : cl ≤ logits.length) (pos : List ℤ) :
    warmLogits logits cl pos = some (pos.map (warmLogit logits cl)) := by
  refine mapM_some fun p _ => ?_
  have hlow : 0 ≤ min (max p 0) ((logits.length : ℤ) - 1) := by omega
  have hlt : (min (max p 0) ((logits.length : ℤ) - 1)).toNat < logits.length := by omega
  rw [gather, if_pos hlow, List.getElem?_eq_getElem hlt, Option.map_some, warmLogit]
  refine congrArg some ?_
  split
  case isTrue h =>
    have hidx : (min (max p 0) ((logits.length : ℤ) - 1)).toNat = p.toNat := by omega
    rw [logitAt, ← hidx, List.getElem?_eq_getElem hlt, Option.getD_some]
  case isFalse => rfl

lemma magnitude_nonneg (sub : List (WithBot ℚ)) : 0 ≤ magnitude sub := by
  induction sub with
  | nil => exact le_rfl
  | cons x sub ih => exact le_max_of_le_right ih

/-- The bound is at most the `k`-th logit of the positions. -/
lemma warmThreshold_le {sub : List (WithBot ℚ)} {k : ℕ} {slack : ℚ} (hslack : 0 ≤ slack) {t : WithBot ℚ}
    (ht : kth sub k = some t) : ∃ thr ≤ t, warmThreshold sub k slack = some thr := by
  refine ⟨t.map fun q => q - slack * magnitude sub, ?_, by rw [warmThreshold, ht]; rfl⟩
  induction t using WithBot.recBotCoe with
  | bot => exact le_rfl
  | coe q =>
    rw [WithBot.map_coe, WithBot.coe_le_coe]
    exact sub_le_self q (mul_nonneg hslack (magnitude_nonneg sub))

/-- The positions of the row that reach the bound. -/
def survivors (logits : List (WithBot ℚ)) (cl : ℕ) (thr : WithBot ℚ) : List ℕ :=
  (List.range cl).filter fun i => thr ≤ logitAt logits i

/-- Enough positions of the row reach the bound. -/
lemma le_length_survivors {pos : List ℤ} (hpos : (pos.filter (0 ≤ ·)).Nodup) {k : ℕ} (hk : 0 < k)
    {t thr : WithBot ℚ} (ht : kth (pos.map (warmLogit logits cl)) k = some t) (hle : thr ≤ t) :
    min k cl ≤ (survivors logits cl thr).length := by
  by_cases hbot : t = ⊥
  case pos =>
    have hall : survivors logits cl thr = List.range cl := by
      rw [survivors, List.filter_eq_self]
      intro i _
      rw [hbot, le_bot_iff] at hle
      exact decide_eq_true (hle ▸ bot_le)
    rw [hall, List.length_range]
    exact min_le_right _ _
  case neg =>
    have hmany := (kth_spec hk ht).1
    rw [List.filter_map, List.length_map] at hmany
    -- the positions that reach the bound are distinct ones of the row
    have hvalid : ∀ p, t ≤ warmLogit logits cl p → 0 ≤ p ∧ p < cl := by
      intro p hp
      by_contra hout
      rw [warmLogit, if_neg hout, le_bot_iff] at hp
      exact hbot hp
    have hnodup : (pos.filter ((fun x => decide (t ≤ x)) ∘ warmLogit logits cl)).Nodup := by
      refine hpos.sublist (List.monotone_filter_right pos fun p hp => ?_)
      exact decide_eq_true (hvalid p (of_decide_eq_true hp)).1
    have hsub : (pos.filter ((fun x => decide (t ≤ x)) ∘ warmLogit logits cl)).map Int.toNat ⊆
        survivors logits cl thr := by
      intro i hi
      obtain ⟨p, hp, rfl⟩ := List.mem_map.mp hi
      obtain ⟨-, hp⟩ := List.mem_filter.mp hp
      have hreach : t ≤ warmLogit logits cl p := of_decide_eq_true hp
      obtain ⟨h0, hlt⟩ := hvalid p hreach
      rw [warmLogit, if_pos ⟨h0, hlt⟩] at hreach
      exact List.mem_filter.mpr ⟨List.mem_range.mpr (by omega), decide_eq_true (hle.trans hreach)⟩
    have hmap := List.Nodup.map_on (f := Int.toNat) (fun p hp q hq he => ?_) hnodup
    · have hle := (hmap.subperm hsub).length_le
      rw [List.length_map] at hle
      exact (min_le_left _ _).trans (hmany.trans hle)
    · have hp0 := (hvalid p (of_decide_eq_true (List.mem_filter.mp hp).2)).1
      have hq0 := (hvalid q (of_decide_eq_true (List.mem_filter.mp hq).2)).1
      omega

/-! ## The packed row -/

lemma i32_natCast {i : ℕ} (h : i < 2 ^ 31) : i32 i = i := i32_of_mem (by omega) (by omega)

/-- The survivors, in the order in which they are packed. -/
lemma compact_eq (T : Torch) (hcl : cl ≤ logits.length) (hlong : logits.length < 2 ^ 31) (thr : WithBot ℚ) :
    ∃ pos : List ℕ, pos.Perm (survivors logits cl thr) ∧ compact T logits cl thr =
      { compV := fill logits.length ⊤ (pos.map fun i => (logitAt logits i : Logit))
        compI := fill logits.length (-1) (pos.map fun (i : ℕ) => (i : ℤ))
        cnt := pos.length } := by
  have hperm := T.shuffle_spec (survivors logits cl thr)
  have hlt : ∀ i ∈ T.shuffle (survivors logits cl thr), i < cl := fun i hi =>
    List.mem_range.mp (List.mem_filter.mp (hperm.mem_iff.mp hi)).1
  have hlen : (T.shuffle (survivors logits cl thr)).length ≤ cl := by
    rw [hperm.length_eq]
    exact (List.length_filter_le _ _).trans List.length_range.le
  refine ⟨T.shuffle (survivors logits cl thr), hperm, ?_⟩
  rw [compact, min_eq_left hcl]
  rw [← survivors, i32_natCast (by omega), List.map_congr_left fun i hi => i32_natCast (by have := hlt i hi; omega)]

/-- The slots of the largest of the first values of a row. -/
lemma persistentTopk_eq (T : Torch) {row : List Logit} {len k : ℕ} (hlen : len ≤ row.length)
    (hlong : row.length < 2 ^ 31) :
    ∃ sel, Top k (Finset.range len) (fun i => row[i]?.getD ⊤) sel ∧
      persistentTopk T row len k = fill k (-1) (sel.map fun (i : ℕ) => (i : ℤ)) := by
  have hn : (max 0 (min (len : ℤ) row.length)).toNat = len := by omega
  rw [persistentTopk, hn]
  have hsel : Top k (Finset.range len) (fun i => row[i]?.getD ⊤)
      (if len ≤ k then List.range len else T.topk (fun i => row[i]?.getD ⊤) len k) := by
    split
    case isTrue hle =>
      refine ⟨List.nodup_range, fun i hi => Finset.mem_range.mpr (List.mem_range.mp hi), ?_, ?_⟩
      · rw [List.length_range, Finset.card_range, min_eq_right hle]
      · intro i _ j hj hn
        exact absurd (List.mem_range.mpr (Finset.mem_range.mp hj)) hn
    case isFalse hlt => exact T.topk_spec _ _ _ (by omega)
  refine ⟨_, hsel, ?_⟩
  have hshort := hsel.length
  rw [List.take_of_length_le (by rw [List.length_map, hshort]; exact min_le_left _ _)]
  rw [List.map_congr_left fun i hi => i32_natCast (by have := Finset.mem_range.mp (hsel.mem i hi); omega)]

/-- The slots of packed positions become these positions, and the empty slots stay empty. -/
lemma remap_eq {pos sel : List ℕ} {width k : ℕ} (hwidth : 0 < width) (hfit : pos.length ≤ width)
    (hpos : ∀ p ∈ pos, p < cl) (hsel : ∀ i ∈ sel, i < pos.length) :
    remap (fill k (-1) (sel.map fun (i : ℕ) => (i : ℤ))) (fill width (-1) (pos.map fun (i : ℕ) => (i : ℤ))) cl =
      some (fill k (-1) ((sel.map fun i => pos[i]?.getD 0).map fun (p : ℕ) => (p : ℤ))) := by
  let val (s : ℤ) : ℤ := if 0 ≤ s then (pos[s.toNat]?.getD 0 : ℕ) else -1
  have hmap : fill k (-1) ((sel.map fun i => pos[i]?.getD 0).map fun (p : ℕ) => (p : ℤ)) =
      (fill k (-1) (sel.map fun (i : ℕ) => (i : ℤ))).map val := by
    simp [fill, val, Function.comp_def]
  rw [hmap]
  refine mapM_some fun s hs => ?_
  obtain hs | hs := List.mem_append.mp hs
  · obtain ⟨i, hi, rfl⟩ := List.mem_map.mp hs
    have hlt := hsel i hi
    have hread : (fill width (-1) (pos.map fun (i : ℕ) => (i : ℤ)))[i]? = some (pos[i] : ℤ) := by
      rw [fill, List.getElem?_append_left (by simpa using hlt), List.getElem?_map, List.getElem?_eq_getElem hlt]
      rfl
    have hp : (pos[i] : ℤ) < cl := Int.ofNat_lt.mpr (hpos _ (List.getElem_mem hlt))
    have hval : val i = pos[i] := by
      rw [show val i = _ from if_pos (Int.natCast_nonneg i), Int.toNat_natCast, List.getElem?_eq_getElem hlt]
      rfl
    rw [max_eq_left (Int.natCast_nonneg i), gather, if_pos (Int.natCast_nonneg i), Int.toNat_natCast, hread,
      Option.map_some, if_pos ⟨Int.natCast_nonneg i, Int.natCast_nonneg _, hp⟩, hval]
  · obtain rfl := List.eq_of_mem_replicate hs
    have hlen : 0 < (fill width (-1) (pos.map fun (i : ℕ) => (i : ℤ))).length := by
      rw [fill, List.length_append, List.length_replicate, List.length_map]
      omega
    rw [max_eq_right (by decide), gather, if_pos le_rfl, Int.toNat_zero, List.getElem?_eq_getElem hlen, Option.map_some,
      if_neg fun h => absurd h.1 (by decide)]
    rfl

lemma select_eq_some (T : Torch) {prev : List ℤ} {k extra : ℕ} {slack : ℚ} {sub : List (WithBot ℚ)} {thr : WithBot ℚ}
    {packed : Packed} {idx : List ℤ} (hsub : warmLogits logits cl (warmPositions prev cl extra) = some sub)
    (hthr : warmThreshold sub k slack = some thr) (hpack : compact T logits cl thr = packed)
    (hidx : remap (persistentTopk T packed.compV packed.cnt k) packed.compI cl = some idx) :
    select T logits cl prev k extra slack = some (idx, packed.cnt) := by
  subst hpack
  refine Option.bind_eq_some_iff.mpr ⟨sub, hsub, Option.bind_eq_some_iff.mpr ⟨thr, hthr, ?_⟩⟩
  exact Option.bind_eq_some_iff.mpr ⟨idx, hidx, rfl⟩

end

/-! ## Exactness -/

/-- For a row of at least one logit and fewer than 2^31, `select` returns an exact top-k of the window. -/
theorem select_exact (T : Torch) (logits : List (WithBot ℚ)) (cl : ℕ) (prev : List ℤ) (k extra : ℕ) (slack : ℚ)
    (hwidth : 0 < logits.length) (hlong : logits.length < 2 ^ 31) (hcl : cl ≤ logits.length) (hprev : prev.length = k)
    (hk : 0 < k) (hslack : 0 ≤ slack) :
    ∃ (sel : List ℕ) (cnt : ℤ), select T logits cl prev k extra slack =
        some (sel.map (fun (p : ℕ) => (p : ℤ)) ++ List.replicate (k - min k cl) (-1), cnt) ∧
      sel.Nodup ∧ sel.length = min k cl ∧ (∀ p ∈ sel, p < cl) ∧
      (∀ t ∈ kth (logits.take cl) k, (∀ p < cl, t < logitAt logits p → p ∈ sel) ∧ ∀ p ∈ sel, t ≤ logitAt logits p) ∧
      (min k cl : ℕ) ≤ cnt := by
  obtain ⟨t, ht⟩ := Option.isSome_iff_exists.mp (kth_isSome
    (l := (warmPositions prev cl extra).map (warmLogit logits cl)) hk (by rw [List.length_map, length_warmPositions]; omega))
  obtain ⟨thr, hle, hthr⟩ := warmThreshold_le hslack ht
  have hmany := le_length_survivors (warmPositions_nodup prev cl extra) hk ht hle
  obtain ⟨pos, hperm, hpack⟩ := compact_eq T hcl hlong thr
  have hlen : pos.length = (survivors logits cl thr).length := hperm.length_eq
  have hfit : pos.length ≤ cl := by
    rw [hlen]
    exact (List.length_filter_le _ _).trans List.length_range.le
  have hpos : ∀ p ∈ pos, p < cl ∧ thr ≤ logitAt logits p := fun p hp => by
    obtain ⟨hlt, hreach⟩ := List.mem_filter.mp (hperm.mem_iff.mp hp)
    exact ⟨List.mem_range.mp hlt, of_decide_eq_true hreach⟩
  have hrow : pos.length ≤ (fill logits.length ⊤ (pos.map fun i => (logitAt logits i : Logit))).length := by
    rw [fill, List.length_append, List.length_map]
    exact Nat.le_add_right _ _
  have hwide : (fill logits.length ⊤ (pos.map fun i => (logitAt logits i : Logit))).length = logits.length := by
    rw [fill, List.length_append, List.length_map, List.length_replicate]
    omega
  obtain ⟨slots, htop, hslots⟩ := persistentTopk_eq T (k := k) hrow (by rw [hwide]; exact hlong)
  -- the slots hold the largest survivors, which are the largest of the window
  have hnodup : pos.Nodup := hperm.nodup_iff.mpr (List.nodup_range.filter _)
  have hinj : Set.InjOn (fun i => pos[i]?.getD 0) (Finset.range pos.length : Set ℕ) := by
    intro i hi j hj he
    have hi := Finset.mem_range.mp (Finset.mem_coe.mp hi)
    have hj := Finset.mem_range.mp (Finset.mem_coe.mp hj)
    dsimp only at he
    rw [List.getElem?_eq_getElem hi, List.getElem?_eq_getElem hj, Option.getD_some, Option.getD_some] at he
    exact hnodup.getElem_inj_iff.mp he
  have hpacked : ∀ i < pos.length, (fill logits.length ⊤ (pos.map fun i => (logitAt logits i : Logit)))[i]?.getD ⊤ =
      logitAt logits (pos[i]?.getD 0) := by
    intro i hi
    rw [fill, List.getElem?_append_left (by simpa using hi), List.getElem?_map, List.getElem?_eq_getElem hi]
    rfl
  have htop' : Top k (Finset.range cl) (logitAt logits) (slots.map fun i => pos[i]?.getD 0) := by
    have hpos' : Top k _ (fun i => logitAt logits (pos[i]?.getD 0)) slots := htop.congr fun i hi j hj hle => by
      rw [hpacked i (Finset.mem_range.mp hi), hpacked j (Finset.mem_range.mp hj)] at hle
      exact WithTop.coe_le_coe.mp hle
    have hmap : Top k _ (logitAt logits) _ := hpos'.map hinj fun i _ => rfl
    refine hmap.extend ?_ ?_ ?_
    · intro p hp
      obtain ⟨i, hi, rfl⟩ := Finset.mem_image.mp hp
      rw [List.getElem?_eq_getElem (Finset.mem_range.mp hi)]
      exact Finset.mem_range.mpr (hpos _ (List.getElem_mem _)).1
    · rw [Finset.card_image_of_injOn hinj, Finset.card_range, Finset.card_range, hlen]
      exact hmany
    · intro p hp j hj hout
      obtain ⟨i, hi, rfl⟩ := Finset.mem_image.mp hp
      rw [List.getElem?_eq_getElem (Finset.mem_range.mp hi)]
      refine le_trans (le_of_not_ge fun hreach => hout ?_) (hpos _ (List.getElem_mem _)).2
      have hmem : j ∈ pos := hperm.mem_iff.mpr (List.mem_filter.mpr
        ⟨List.mem_range.mpr (Finset.mem_range.mp hj), decide_eq_true hreach⟩)
      obtain ⟨i', hi', rfl⟩ := List.mem_iff_getElem.mp hmem
      refine Finset.mem_image.mpr ⟨i', Finset.mem_range.mpr hi', ?_⟩
      rw [List.getElem?_eq_getElem hi']
      rfl
  refine ⟨slots.map fun i => pos[i]?.getD 0, pos.length, ?_, htop'.nodup, ?_, ?_, ?_, ?_⟩
  · have hslot : ∀ i ∈ slots, i < pos.length := fun i hi => Finset.mem_range.mp (htop.mem i hi)
    have hmap := remap_eq (k := k) hwidth (hfit.trans hcl) (fun p hp => (hpos p hp).1) hslot
    have hcount := htop'.length
    rw [Finset.card_range] at hcount
    rw [← hslots] at hmap
    rw [select_eq_some T (warmLogits_eq hwidth hcl _) hthr hpack hmap, fill, List.length_map, hcount]
  · rw [htop'.length, Finset.card_range]
  · exact fun p hp => Finset.mem_range.mp (htop'.mem p hp)
  · intro u hu
    have htake : logits.take cl = (List.range cl).map (logitAt logits) := by
      refine List.ext_getElem (by rw [List.length_take, List.length_map, List.length_range]; omega) fun i hi hi' => ?_
      rw [List.length_take] at hi
      rw [List.getElem_take, List.getElem_map, List.getElem_range, logitAt, List.getElem?_eq_getElem (by omega)]
      rfl
    rw [htake] at hu
    obtain ⟨hge, hmem⟩ := htop'.kth hk hu
    exact ⟨hmem, hge⟩
  · rw [hlen]
    exact_mod_cast hmany

/-- A window of three logits, with one previous position twice. -/
theorem select_exact_three : ∃ (sel : List ℕ) (cnt : ℤ),
    select Torch.sorting [(1 : ℚ), (3 : ℚ), (2 : ℚ), ⊥] 3 [2, 2] 2 1 (1 / 100000) =
      some (sel.map (fun (p : ℕ) => (p : ℤ)) ++ List.replicate (2 - min 2 3) (-1), cnt) ∧ sel.length = 2 := by
  obtain ⟨sel, cnt, hsel, -, hlen, -⟩ := select_exact Torch.sorting [(1 : ℚ), (3 : ℚ), (2 : ℚ), ⊥] 3 [2, 2] 2 1
    (1 / 100000) (by decide) (by decide) (by decide) rfl (by decide) (by norm_num)
  exact ⟨sel, cnt, hsel, hlen⟩

/-- A position whose `int32` is negative is dropped. -/
lemma select_far {n : ℕ} (hn : i32 n < 0) :
    select Torch.sorting (List.replicate n ⊥ ++ [((0 : ℚ) : WithBot ℚ)]) (n + 1) [(n : ℤ)] 1 0 0 = some ([-1], 1) := by
  have hlen : (List.replicate n ⊥ ++ [((0 : ℚ) : WithBot ℚ)]).length = n + 1 := by
    rw [List.length_append, List.length_replicate, List.length_singleton]
  have hlast : logitAt (List.replicate n ⊥ ++ [((0 : ℚ) : WithBot ℚ)]) n = (0 : ℚ) := by
    simp [logitAt]
  have hpos : warmPositions [(n : ℤ)] (n + 1) 0 = [(n : ℤ)] := by
    simp [warmPositions, even, markRepeats]
  have hsub : warmLogits _ (n + 1) _ = _ :=
    warmLogits_eq (hlen ▸ Nat.succ_pos n) hlen.ge (warmPositions [(n : ℤ)] (n + 1) 0)
  rw [hpos, List.map_singleton, warmLogit, if_pos ⟨Int.natCast_nonneg n, by omega⟩, Int.toNat_natCast, hlast] at hsub
  have hthr : warmThreshold [((0 : ℚ) : WithBot ℚ)] 1 0 = some ((0 : ℚ) : WithBot ℚ) := by
    simp [warmThreshold, kth]
  have hsurv : (List.range (n + 1)).filter (fun i =>
      ((0 : ℚ) : WithBot ℚ) ≤ logitAt (List.replicate n ⊥ ++ [((0 : ℚ) : WithBot ℚ)]) i) = [n] := by
    have hfront : (List.range n).filter (fun i =>
        ((0 : ℚ) : WithBot ℚ) ≤ logitAt (List.replicate n ⊥ ++ [((0 : ℚ) : WithBot ℚ)]) i) = [] := by
      rw [List.filter_eq_nil_iff]
      intro i hi
      rw [List.mem_range] at hi
      simp [logitAt, List.getElem?_append, hi]
    rw [List.range_succ, List.filter_append, hfront, List.filter_singleton, hlast]
    rfl
  have hpack : compact Torch.sorting (List.replicate n ⊥ ++ [((0 : ℚ) : WithBot ℚ)]) (n + 1) (0 : ℚ) =
      { compV := fill (n + 1) ⊤ [(((0 : ℚ) : WithBot ℚ) : Logit)]
        compI := fill (n + 1) (-1) [i32 n]
        cnt := 1 } := by
    have hone : i32 (1 : ℕ) = 1 := by decide
    rw [compact, hlen, min_self, hsurv]
    simp only [Torch.sorting, id_eq, List.map_singleton, List.length_singleton, hlast, hone]
  have hslots : persistentTopk Torch.sorting (fill (n + 1) ⊤ [(((0 : ℚ) : WithBot ℚ) : Logit)]) 1 1 = [0] := by
    have hone : (max 0 (min (1 : ℤ) (fill (n + 1) ⊤ [(((0 : ℚ) : WithBot ℚ) : Logit)]).length)).toNat = 1 := by
      rw [fill, List.length_append, List.length_singleton]
      omega
    have hzero : i32 (0 : ℕ) = 0 := by decide
    rw [persistentTopk, hone]
    simp only [le_refl, if_true, List.range_one, List.map_singleton, hzero]
    rfl
  have hremap : remap [0] (fill (n + 1) (-1) [i32 n]) (n + 1) = some [-1] := by
    have hread : gather (fill (n + 1) (-1) [i32 n]) (max 0 0) = some (i32 n) := by
      simp [gather, fill]
    rw [remap, List.mapM_cons, hread, Option.map_some, if_neg fun h => hn.not_ge h.2.1]
    rfl
  rw [← hslots] at hremap
  rw [← hpos] at hsub
  exact select_eq_some Torch.sorting hsub hthr hpack hremap

/-- A row without logits is read out of bounds, and a position from 2^31 on is lost. -/
theorem empty_row_far_position : select Torch.sorting [] 0 [-1] 1 0 0 = none ∧
    select Torch.sorting (List.replicate (2 ^ 31) ⊥ ++ [((0 : ℚ) : WithBot ℚ)]) (2 ^ 31 + 1) [2 ^ 31] 1 0 0 =
      some ([-1], 1) := by
  refine ⟨?_, ?_⟩
  · have hpos : warmPositions [-1] 0 0 = [-1] := by
      simp [warmPositions, even, markRepeats]
    rw [select, hpos]
    rfl
  · have hneg : i32 (2 ^ 31 : ℕ) < 0 := by decide
    exact select_far hneg

end SuffixHybrid.Dsa
