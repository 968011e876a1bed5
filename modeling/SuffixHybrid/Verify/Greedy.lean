import Mathlib.Data.List.TakeWhile
import SuffixHybrid.Lib.Except
import SuffixHybrid.Lib.Slice
import SuffixHybrid.Lib.Word

/-!
# Greedy verification

`rejection_greedy_accept` walks the segments of a batch of requests in one flat array of draft tokens. The
segment of a request ends at its entry of `cu` and starts at the entry before it. Whatever `cu` holds, what the
loop of a request reads is `own` (`rejectionGreedyAccept_eq`); where `cu` counts the drafts, `own` is the
segment of the request, up to `max_spec_len` tokens of it (`own_of_counts`).
-/

namespace SuffixHybrid.Verify
open Lib

/-- How a call fails: with a `ValueError`, or by an index out of range. -/
inductive VerifyError where
  | value (text : String)
  | outOfRange
deriving DecidableEq

/-! ## The code -/

/-- `v[i]`. -/
def readAt {α : Type} (v : List α) (i : ℕ) : Except VerifyError α :=
  match v[i]? with
  | some a => .ok a
  | none => .error .outOfRange

/-- `v[i] = a`. -/
def writeAt {α : Type} (v : List α) (i : ℕ) (a : α) : Except VerifyError (List α) :=
  if i < v.length then .ok (v.set i a) else .error .outOfRange

/-- `v[i..j]`. -/
def sliceAt {α : Type} (v : List α) (i j : ℕ) : Except VerifyError (List α) :=
  match slice v i j with
  | some w => .ok w
  | none => .error .outOfRange

/-- `x as usize`. -/
def asUsize (x : Int64) : ℕ := x.toUInt64.toNat

/-- The loop over the `n` draft positions from `p` on. -/
def countFrom (draft argmax : List Int64) (start : ℕ) : ℕ → ℕ → ℕ → Except VerifyError ℕ
  | 0, _, count => .ok count
  | n + 1, p, count => do
    let idx := usize (start + p)
    let d ← readAt draft idx
    if 0 ≤ d then do
      let a ← readAt argmax idx
      if d = a then countFrom draft argmax start n (p + 1) (count + 1) else .ok count
    else .ok count

/-- The two arrays under construction. -/
structure Arrays where
  acceptCount : List ℤ
  emitMask : List ℤ

/-- Where the tokens of a request start. -/
def startOf (cu : List Int64) (b : ℕ) : Except VerifyError ℕ :=
  if b = 0 then .ok 0 else do
    let c ← readAt cu (b - 1)
    .ok (asUsize c)

/-- The loop over `p` that marks the columns of a row. -/
def markRow (base count : ℕ) (mask : List ℤ) : Except VerifyError (List ℤ) :=
  (List.range (count + 1)).foldlM (fun m p => writeAt m (usize (base + p)) 1) mask

/-- The body of the loop over the requests. -/
def verifyRow (draft argmax cu : List Int64) (maxSpecLen width : ℕ) (s : Arrays) (b : ℕ) :
    Except VerifyError Arrays := do
  let start ← startOf cu b
  let c ← readAt cu b
  let stop := min (asUsize c) draft.length
  let owned := min (stop - start) maxSpecLen
  let count ← countFrom draft argmax start owned 0 0
  let acceptCount ← writeAt s.acceptCount b (i32 count)
  let emitMask ← markRow (usize (b * width)) (min count maxSpecLen) s.emitMask
  .ok ⟨acceptCount, emitMask⟩

/-- `rejection_greedy_accept`: the accept counts and the rows of the mask. -/
def rejectionGreedyAccept (draft argmax cu : List Int64) (maxSpecLen : ℕ) :
    Except VerifyError (List ℤ × List (List ℤ)) :=
  if draft.length ≠ argmax.length then
    .error (.value s!"draft_token_ids ({draft.length}) and target_argmax ({argmax.length}) length mismatch")
  else do
    let batch := cu.length
    let width := usize (maxSpecLen + 1)
    let s ← (List.range batch).foldlM (verifyRow draft argmax cu maxSpecLen width)
      ⟨List.replicate batch 0, List.replicate (usize (batch * width)) 0⟩
    let masks ← (List.range batch).mapM fun b => sliceAt s.emitMask (usize (b * width)) (usize ((b + 1) * width))
    .ok (s.acceptCount, masks)

/-! ## What a request reads -/

/-- A draft token that is accepted: no padding, and the target's own choice. -/
def Accepted (t : Int64 × Int64) : Bool := 0 ≤ t.1 ∧ t.1 = t.2

/-- The entry of `cu` where the tokens of a request start. -/
def first (cu : List Int64) (b : ℕ) : ℕ := if b = 0 then 0 else ((cu[b - 1]?).map asUsize).getD 0

/-- The draft tokens that the loop of a request may read, each with the target's choice. -/
def own (tokens : List (Int64 × Int64)) (cu : List Int64) (maxSpecLen b : ℕ) : List (Int64 × Int64) :=
  (tokens.drop (first cu b)).take (min (min (((cu[b]?).map asUsize).getD 0) tokens.length - first cu b) maxSpecLen)

/-- How many tokens are accepted. -/
def runLength (tokens : List (Int64 × Int64)) : ℕ := (tokens.takeWhile Accepted).length

/-- A row of the mask: ones up to a column, and zeros. -/
def maskRow (width count : ℕ) : List ℤ := (List.range width).map fun p => if p ≤ count then 1 else 0

/-! ## One request -/

lemma readAt_of_lt {α : Type} {v : List α} {i : ℕ} (h : i < v.length) : readAt v i = .ok v[i] := by
  rw [readAt, List.getElem?_eq_getElem h]

lemma writeAt_of_lt {α : Type} {v : List α} {i : ℕ} (h : i < v.length) (a : α) : writeAt v i a = .ok (v.set i a) :=
  if_pos h

lemma asUsize_lt (x : Int64) : asUsize x < 2 ^ 64 := x.toUInt64.toNat_lt

/-- The loop over the positions of a request stays inside the two arrays. -/
lemma countFrom_eq {draft argmax : List Int64} (hlen : draft.length = argmax.length) {start n p count : ℕ}
    (hn : n = 0 ∨ start + p + n ≤ draft.length ∧ start + p + n ≤ 2 ^ 64) :
    countFrom draft argmax start n p count =
      .ok (count + runLength (((draft.zip argmax).drop (start + p)).take n)) := by
  induction n generalizing p count with
  | zero =>
    rw [countFrom, List.take_zero]
    rfl
  | succ n ih =>
    obtain ⟨hfit, hword⟩ := hn.resolve_left (Nat.succ_ne_zero n)
    have hd : start + p < draft.length := by omega
    have ha : start + p < argmax.length := hlen ▸ hd
    have hz : start + p < (draft.zip argmax).length := by
      rw [List.length_zip, ← hlen, min_self]
      exact hd
    have hidx : usize (start + p) = start + p := usize_of_lt (by omega)
    have htail := @ih (p + 1) (count + 1) (by omega)
    have hdrop : (draft.zip argmax).drop (start + p) = (draft[start + p], argmax[start + p]) ::
        (draft.zip argmax).drop (start + (p + 1)) := by
      rw [List.drop_eq_getElem_cons hz, List.getElem_zip, Nat.add_assoc]
    rw [countFrom, hidx, readAt_of_lt hd, readAt_of_lt ha, hdrop, List.take_succ_cons, runLength]
    by_cases hpad : 0 ≤ draft[start + p]
    case neg =>
      have hnot : Accepted (draft[start + p], argmax[start + p]) = false := decide_eq_false fun h => hpad h.1
      rw [List.takeWhile_cons, hnot]
      exact if_neg hpad
    case pos =>
      by_cases hsame : draft[start + p] = argmax[start + p]
      case neg =>
        have hnot : Accepted (draft[start + p], argmax[start + p]) = false := decide_eq_false fun h => hsame h.2
        rw [List.takeWhile_cons, hnot]
        exact (if_pos hpad).trans (if_neg hsame)
      case pos =>
        have hacc : Accepted (draft[start + p], argmax[start + p]) = true := decide_eq_true ⟨hpad, hsame⟩
        rw [List.takeWhile_cons, hacc, if_pos rfl, List.length_cons]
        refine (if_pos hpad).trans ((if_pos hsame).trans (htail.trans (congrArg Except.ok ?_)))
        rw [runLength, Nat.add_right_comm, Nat.add_assoc]

lemma runLength_le (tokens : List (Int64 × Int64)) : runLength tokens ≤ tokens.length :=
  (List.takeWhile_prefix _).length_le

lemma length_maskRow (width count : ℕ) : (maskRow width count).length = width := by
  rw [maskRow, List.length_map, List.length_range]

/-- Marking a row writes the row and nothing else. -/
lemma markRow_eq {pre rest : List ℤ} {width count : ℕ} (hc : count < width)
    (hword : pre.length + width ≤ 2 ^ 64) :
    markRow pre.length count (pre ++ (List.replicate width 0 ++ rest)) = .ok (pre ++ (maskRow width count ++ rest)) := by
  let st (i : ℕ) : List ℤ := pre ++ ((List.range width).map (fun p => if p < i then 1 else 0) ++ rest)
  have h0 : pre ++ (List.replicate width 0 ++ rest) = st 0 := by
    simp [st]
  have hlast : pre ++ (maskRow width count ++ rest) = st (count + 1) := by
    simp only [maskRow, st, Nat.lt_succ_iff]
  rw [h0, hlast]
  refine foldlM_range_ok st fun i hi => ?_
  have hiw : i < width := hi.trans_le hc
  have hlen : pre.length + i < (st i).length := by
    simp only [st, List.length_append, List.length_map, List.length_range]
    omega
  rw [usize_of_lt (by omega), writeAt_of_lt hlen]
  refine congrArg Except.ok ?_
  simp only [st]
  rw [List.set_append_right _ _ (Nat.le_add_right _ _), Nat.add_sub_cancel_left,
    List.set_append_left _ _ (by simpa using hiw)]
  congr 2
  refine List.ext_getElem (by simp) fun p hp _ => ?_
  rw [List.getElem_set, List.getElem_map, List.getElem_map, List.getElem_range]
  by_cases hip : i = p
  · rw [if_pos hip, if_pos (by omega)]
  · rw [if_neg hip]
    have hiff : p < i ↔ p < i + 1 := by omega
    simp only [hiff]

/-! ## The batch -/

/-- The arrays after the first `b` of `n` requests, where request `i` has `c i` tokens accepted. -/
def stateAt (c : ℕ → ℕ) (n width b : ℕ) : Arrays where
  acceptCount := (List.range b).map (fun i => i32 (c i)) ++ List.replicate (n - b) 0
  emitMask := ((List.range b).map fun i => maskRow width (c i)).flatten ++ List.replicate ((n - b) * width) 0

section
variable {c : ℕ → ℕ} {n width b : ℕ}

lemma writeAt_acceptCount (hb : b < n) :
    writeAt (stateAt c n width b).acceptCount b (i32 (c b)) = .ok (stateAt c n width (b + 1)).acceptCount := by
  have hrest : n - b = n - (b + 1) + 1 := by omega
  have hlt : b < (stateAt c n width b).acceptCount.length := by
    simp only [stateAt, List.length_append, List.length_map, List.length_range, List.length_replicate]
    omega
  rw [writeAt_of_lt hlt]
  refine congrArg Except.ok ?_
  simp only [stateAt]
  rw [List.set_append_right _ _ (by simp), List.length_map, List.length_range, Nat.sub_self, hrest,
    List.replicate_succ, List.set_cons_zero, List.range_succ, List.map_append, List.append_assoc]
  rfl

lemma length_rows (c : ℕ → ℕ) (width b : ℕ) :
    ((List.range b).map fun i => maskRow width (c i)).flatten.length = b * width := by
  simp [List.length_flatten, Function.comp_def, length_maskRow]

lemma markRow_emitMask (hb : b < n) (hc : c b < width) (hcells : n * width < 2 ^ 64) :
    markRow (usize (b * width)) (c b) (stateAt c n width b).emitMask = .ok (stateAt c n width (b + 1)).emitMask := by
  have hrow : (b + 1) * width ≤ n * width := Nat.mul_le_mul_right _ hb
  have hzeros : List.replicate ((n - b) * width) (0 : ℤ) =
      List.replicate width 0 ++ List.replicate ((n - (b + 1)) * width) 0 := by
    have hrest : n - b = n - (b + 1) + 1 := by omega
    rw [hrest, Nat.succ_mul, Nat.add_comm, List.replicate_add]
  rw [Nat.succ_mul] at hrow
  rw [usize_of_lt (by omega), ← length_rows c width b]
  simp only [stateAt]
  rw [hzeros, markRow_eq hc (by rw [length_rows]; omega), List.range_succ, List.map_append, List.flatten_append,
    List.append_assoc]
  simp

end

lemma startOf_eq {cu : List Int64} {b : ℕ} (hb : b < cu.length) : startOf cu b = .ok (first cu b) := by
  rw [startOf, first]
  split
  · rfl
  · have hb' : b - 1 < cu.length := by omega
    rw [readAt_of_lt hb', List.getElem?_eq_getElem hb']
    rfl

section
variable {draft argmax cu : List Int64} {maxSpecLen : ℕ}

/-- How many tokens of a request are accepted. -/
def acceptedOf (draft argmax cu : List Int64) (maxSpecLen b : ℕ) : ℕ :=
  runLength (own (draft.zip argmax) cu maxSpecLen b)

lemma acceptedOf_le (b : ℕ) : acceptedOf draft argmax cu maxSpecLen b ≤ maxSpecLen := by
  refine (runLength_le _).trans ?_
  rw [own, List.length_take]
  exact (min_le_left _ _).trans (min_le_right _ _)

/-- Every request is handled without an index out of range. -/
lemma verifyRow_eq (hlen : draft.length = argmax.length) (hcells : cu.length * (maxSpecLen + 1) < 2 ^ 64) {b : ℕ}
    (hb : b < cu.length) :
    verifyRow draft argmax cu maxSpecLen (maxSpecLen + 1)
      (stateAt (acceptedOf draft argmax cu maxSpecLen) cu.length (maxSpecLen + 1) b) b =
        .ok (stateAt (acceptedOf draft argmax cu maxSpecLen) cu.length (maxSpecLen + 1) (b + 1)) := by
  have hcount : countFrom draft argmax (first cu b) (min (min (asUsize cu[b]) draft.length - first cu b) maxSpecLen) 0 0 =
      .ok (acceptedOf draft argmax cu maxSpecLen b) := by
    have hword := asUsize_lt cu[b]
    rw [countFrom_eq hlen (by omega), acceptedOf, own, List.getElem?_eq_getElem hb, List.length_zip, ← hlen, min_self,
      Nat.zero_add]
    rfl
  have hmask := markRow_emitMask (c := acceptedOf draft argmax cu maxSpecLen) hb
    (Nat.lt_succ_of_le (acceptedOf_le b)) hcells
  rw [← min_eq_left (acceptedOf_le b)] at hmask
  exact bind_eq_ok.mpr ⟨_, startOf_eq hb, bind_eq_ok.mpr ⟨_, readAt_of_lt hb, bind_eq_ok.mpr ⟨_, hcount,
    bind_eq_ok.mpr ⟨_, writeAt_acceptCount hb, bind_eq_ok.mpr ⟨_, hmask, rfl⟩⟩⟩⟩⟩

/-- What a call returns, for any `cu`. -/
lemma rejectionGreedyAccept_eq (hlen : draft.length = argmax.length) (hcells : cu.length * (maxSpecLen + 1) < 2 ^ 64) :
    rejectionGreedyAccept draft argmax cu maxSpecLen =
      .ok ((List.range cu.length).map fun b => i32 (acceptedOf draft argmax cu maxSpecLen b),
        (List.range cu.length).map fun b => maskRow (maxSpecLen + 1) (acceptedOf draft argmax cu maxSpecLen b)) := by
  rw [rejectionGreedyAccept, if_neg (not_not_intro hlen)]
  obtain hnil | hpos := Nat.eq_zero_or_pos cu.length
  · rw [hnil]
    rfl
  have hwidth : maxSpecLen + 1 ≤ cu.length * (maxSpecLen + 1) := Nat.le_mul_of_pos_left _ hpos
  have hloop := foldlM_range_ok (stateAt (acceptedOf draft argmax cu maxSpecLen) cu.length (maxSpecLen + 1))
    fun b hb => verifyRow_eq hlen hcells hb
  have hinit : stateAt (acceptedOf draft argmax cu maxSpecLen) cu.length (maxSpecLen + 1) 0 =
      ⟨List.replicate cu.length 0, List.replicate (cu.length * (maxSpecLen + 1)) 0⟩ := by
    simp [stateAt]
  have hend : stateAt (acceptedOf draft argmax cu maxSpecLen) cu.length (maxSpecLen + 1) cu.length =
      ⟨(List.range cu.length).map fun b => i32 (acceptedOf draft argmax cu maxSpecLen b),
        ((List.range cu.length).map fun b =>
          maskRow (maxSpecLen + 1) (acceptedOf draft argmax cu maxSpecLen b)).flatten⟩ := by
    simp [stateAt]
  rw [hinit, hend] at hloop
  have hrows : ((List.range cu.length).mapM fun b => sliceAt ((List.range cu.length).map fun b =>
        maskRow (maxSpecLen + 1) (acceptedOf draft argmax cu maxSpecLen b)).flatten
      (usize (b * (maxSpecLen + 1))) (usize ((b + 1) * (maxSpecLen + 1)))) =
        .ok ((List.range cu.length).map fun b =>
          maskRow (maxSpecLen + 1) (acceptedOf draft argmax cu maxSpecLen b)) := by
    rw [mapM_eq_ok, List.forall₂_map_right_iff, List.forall₂_same]
    intro b hb
    rw [List.mem_range] at hb
    have hrow : (b + 1) * (maxSpecLen + 1) ≤ cu.length * (maxSpecLen + 1) := Nat.mul_le_mul_right _ hb
    rw [Nat.succ_mul] at hrow
    have hwidths : ∀ r ∈ (List.range cu.length).map fun b =>
        maskRow (maxSpecLen + 1) (acceptedOf draft argmax cu maxSpecLen b), r.length = maxSpecLen + 1 := by
      rintro r hr
      obtain ⟨i, -, rfl⟩ := List.mem_map.mp hr
      exact length_maskRow _ _
    have hget : ((List.range cu.length).map fun b =>
        maskRow (maxSpecLen + 1) (acceptedOf draft argmax cu maxSpecLen b))[b]? =
          some (maskRow (maxSpecLen + 1) (acceptedOf draft argmax cu maxSpecLen b)) := by
      rw [List.getElem?_map, List.getElem?_range hb]
      rfl
    rw [sliceAt, Nat.succ_mul, usize_of_lt (by omega), usize_of_lt (by omega),
      slice_flatten hwidths hget (le_refl (maxSpecLen + 1)), List.take_of_length_le (length_maskRow _ _).le]
  dsimp only
  rw [usize_of_lt (hwidth.trans_lt hcells), usize_of_lt hcells]
  exact bind_eq_ok.mpr ⟨_, hloop, bind_eq_ok.mpr ⟨_, hrows, rfl⟩⟩

end

/-! ## Counted drafts -/

/-- `cu` counts the tokens of the segments up to each request. -/
def Counts (cu : List Int64) (segs : List (List (Int64 × Int64))) : Prop :=
  cu.map Int64.toInt = (List.range segs.length).map fun b => ((segs.take (b + 1)).flatten.length : ℤ)

instance (cu : List Int64) (segs : List (List (Int64 × Int64))) : Decidable (Counts cu segs) :=
  inferInstanceAs (Decidable (_ = _))

section
variable {segs : List (List (Int64 × Int64))} {cu : List Int64}

lemma Counts.length (h : Counts cu segs) : cu.length = segs.length := by
  have hlen := congrArg List.length h
  rwa [List.length_map, List.length_map, List.length_range] at hlen

lemma asUsize_of_toInt {x : Int64} {n : ℕ} (h : x.toInt = n) : asUsize x = n := by
  have hpos : 0 ≤ x := by
    rw [Int64.le_iff_toInt_le, h]
    exact Int.natCast_nonneg n
  rw [asUsize, Int64.toNat_toUInt64_of_le hpos, Int64.toNatClampNeg, h]
  rfl

lemma Counts.asUsize (h : Counts cu segs) {b : ℕ} (hb : b < segs.length) :
    (cu[b]?).map Verify.asUsize = some (segs.take (b + 1)).flatten.length := by
  have hb' : b < cu.length := h.length ▸ hb
  have hget := congrArg (fun l => l[b]?) h
  simp only [List.getElem?_map, List.getElem?_eq_getElem hb', List.getElem?_range hb, Option.map_some,
    Option.some.injEq] at hget
  rw [List.getElem?_eq_getElem hb', Option.map_some, asUsize_of_toInt hget]

/-- What a request reads is its own segment. -/
lemma own_of_counts (h : Counts cu segs) (rest : List (Int64 × Int64)) (maxSpecLen : ℕ) {b : ℕ}
    (hb : b < segs.length) : own (segs.flatten ++ rest) cu maxSpecLen b = segs[b].take maxSpecLen := by
  have hfirst : first cu b = (segs.take b).flatten.length := by
    rw [first]
    split
    case isTrue h0 =>
      rw [h0, List.take_zero]
      rfl
    case isFalse h0 =>
      rw [h.asUsize (by omega), Option.getD_some, Nat.sub_add_cancel (by omega)]
  have hsplit : segs.flatten ++ rest = (segs.take b).flatten ++ (segs[b] ++ ((segs.drop (b + 1)).flatten ++ rest)) := by
    conv_lhs => rw [← List.take_append_drop b segs, List.flatten_append, List.drop_eq_getElem_cons hb, List.flatten_cons]
    rw [List.append_assoc, List.append_assoc]
  have hstop : (segs.take (b + 1)).flatten.length = (segs.take b).flatten.length + segs[b].length := by
    rw [List.take_succ_eq_append_getElem hb, List.flatten_append, List.length_append, List.flatten_singleton]
  rw [own, h.asUsize hb, Option.getD_some, hfirst, hstop, hsplit, List.drop_left, List.length_append, List.length_append]
  rw [min_eq_left (Nat.add_le_add_left (Nat.le_add_right _ _) _), Nat.add_sub_cancel_left, min_comm, ← List.take_take,
    List.take_left]

lemma runLength_take (tokens : List (Int64 × Int64)) (n : ℕ) : runLength (tokens.take n) = min (runLength tokens) n := by
  rw [runLength, ← List.take_takeWhile, List.length_take, runLength, min_comm]

lemma zip_unzip (tokens : List (Int64 × Int64)) : (tokens.map Prod.fst).zip (tokens.map Prod.snd) = tokens := by
  rw [List.zip_map']
  exact List.map_id tokens

lemma acceptedOf_of_counts (h : Counts cu segs) (rest : List (Int64 × Int64)) (maxSpecLen : ℕ) {b : ℕ}
    (hb : b < segs.length) :
    acceptedOf ((segs.flatten ++ rest).map Prod.fst) ((segs.flatten ++ rest).map Prod.snd) cu maxSpecLen b =
      min (runLength segs[b]) maxSpecLen := by
  rw [acceptedOf, zip_unzip, own_of_counts h rest maxSpecLen hb, runLength_take]

end

/-- No call indexes out of range while the mask has fewer than 2^64 cells, and where `cu` counts the drafts each
request gets the accept count and the row of its own segment. -/
theorem greedy_accept :
    (∀ (draft argmax cu : List Int64) (maxSpecLen : ℕ), draft.length = argmax.length →
      cu.length * (maxSpecLen + 1) < 2 ^ 64 → ∃ r, rejectionGreedyAccept draft argmax cu maxSpecLen = .ok r) ∧
    ∀ (segs : List (List (Int64 × Int64))) (rest : List (Int64 × Int64)) (cu : List Int64) (maxSpecLen : ℕ),
      Counts cu segs → cu.length * (maxSpecLen + 1) < 2 ^ 64 → (∀ seg ∈ segs, min seg.length maxSpecLen < 2 ^ 31) →
        rejectionGreedyAccept ((segs.flatten ++ rest).map Prod.fst) ((segs.flatten ++ rest).map Prod.snd) cu maxSpecLen =
          .ok (segs.map fun seg => ((min (runLength seg) maxSpecLen : ℕ) : ℤ),
            segs.map fun seg => maskRow (maxSpecLen + 1) (min (runLength seg) maxSpecLen)) := by
  refine ⟨fun draft argmax cu maxSpecLen hlen hcells => ⟨_, rejectionGreedyAccept_eq hlen hcells⟩, ?_⟩
  intro segs rest cu maxSpecLen hcu hcells hshort
  have heach {β : Type} {f : ℕ → β} {g : List (Int64 × Int64) → β}
      (h : ∀ b, (hb : b < segs.length) → f b = g segs[b]) :
      (List.range cu.length).map f = segs.map g := by
    rw [hcu.length]
    refine List.ext_getElem (by simp) fun b hb hb' => ?_
    rw [List.length_map] at hb'
    rw [List.getElem_map, List.getElem_map, List.getElem_range, h b hb']
  rw [rejectionGreedyAccept_eq (by rw [List.length_map, List.length_map]) hcells]
  refine congrArg Except.ok (Prod.ext (heach fun b hb => ?_) (heach fun b hb => ?_))
  · rw [acceptedOf_of_counts hcu rest maxSpecLen hb]
    have hle := runLength_le segs[b]
    have hlt := hshort _ (List.getElem_mem hb)
    exact i32_of_mem (by omega) (by omega)
  · rw [acceptedOf_of_counts hcu rest maxSpecLen hb]

/-- Three requests, one without drafts and one with a padded draft. -/
theorem greedy_accept_three :
    rejectionGreedyAccept [5, 6, 3, -1] [5, 7, 3, -1] [2, 2, 4] 3 =
      .ok ([1, 0, 1], [[1, 1, 0, 0], [1, 0, 0, 0], [1, 1, 0, 0]]) := by
  exact greedy_accept.2 [[(5, 5), (6, 7)], [], [(3, 3), (-1, -1)]] [] [2, 2, 4] 3 (by decide) (by decide) (by decide)

/-- One request whose `n` drafts are all accepted. -/
lemma accept_zeros {n : ℕ} {x : Int64} (hx : x.toInt = n) (hn : n + 1 < 2 ^ 64) :
    rejectionGreedyAccept (List.replicate n 0) (List.replicate n 0) [x] n = .ok ([i32 n], [maskRow (n + 1) n]) := by
  have hcounts : Counts [x] [List.replicate n (0, 0)] := by
    simp [Counts, hx]
  have htokens (f : Int64 × Int64 → Int64) (hf : f (0, 0) = 0) :
      ([List.replicate n ((0, 0) : Int64 × Int64)].flatten ++ []).map f = List.replicate n 0 := by
    rw [List.append_nil, List.flatten_singleton, List.map_replicate, hf]
  have hacc := acceptedOf_of_counts hcounts [] n Nat.one_pos
  have hlen : runLength (List.replicate n (0, 0)) = n := by
    rw [runLength, List.takeWhile_replicate, if_pos (by decide), List.length_replicate]
  rw [htokens Prod.fst rfl, htokens Prod.snd rfl, List.getElem_cons_zero, hlen, min_self] at hacc
  rw [rejectionGreedyAccept_eq rfl (by simpa using hn)]
  rw [List.length_singleton, List.range_one, List.map_singleton, List.map_singleton, hacc]

/-- The width of the mask wraps around at the largest `max_spec_len`, and a count from 2^31 on is no `i32`. -/
theorem wide_mask_long_run :
    rejectionGreedyAccept [] [] [0] (2 ^ 64 - 1) = .error .outOfRange ∧
      ∃ masks, rejectionGreedyAccept (List.replicate (2 ^ 31) 0) (List.replicate (2 ^ 31) 0) [2 ^ 31] (2 ^ 31) =
        .ok ([-2 ^ 31], masks) := by
  have hwrap : i32 (2 ^ 31 : ℕ) = -2 ^ 31 := by decide
  have hword : (2 ^ 31 : Int64).toInt = (2 ^ 31 : ℕ) := by decide
  have hlong := accept_zeros hword (by decide)
  rw [hwrap] at hlong
  exact ⟨by decide, _, hlong⟩

end SuffixHybrid.Verify
